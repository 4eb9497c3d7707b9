import Vdb.Durable.Operations

/-!
# What is left of calls one at a time

The log that a process finds is the one of a front of the calls, but for checkpoints.  Under
`PerOpSync` a call has ended only when its record is durable, so that this front has all of the
calls that had ended.

* `rebuilt` : a process that opens the files has what a front of the calls makes of the database.
-/

namespace Vdb

namespace Durable

open Metadata Database

variable {ι δ : Type}

/-- The job of a call that waits for its record to be durable. -/
def Pc.waiting : Pc δ → Option Job
  | .commit job => some job
  | .capture (.groupCommit job) => some job
  | .fsync (.groupCommit job) _ _ => some job
  | .synced (.groupCommit job) _ => some job
  | _ => none

variable [ColumnIndex ι] [Distance δ] {K : Kernels δ}

section

variable {d d' : DurableVDB ι} {w : Bool} {env : Env} {pc pc' : Pc δ} {r : Option WalRecord}

omit [ColumnIndex ι] in
theorem DurableVDB.le_credit (d : DurableVDB ι) (synced : ℕ) :
    d.durableLsn ≤ (d.credit synced).durableLsn := by
  unfold credit
  dsimp only
  split_ifs with hlt
  · exact hlt.le
  · exact le_rfl

/-- What a section that returns does to the jobs that wait to be durable. -/
structure Awaits (d d' : DurableVDB ι) (pc pc' : Pc δ) (r : Option WalRecord) : Prop where
  durableLsn : d.durableLsn ≤ d'.durableLsn
  opts : d'.opts = d.opts
  waiting : ∀ job ∈ pc.waiting, job.lsn ≤ d'.durableLsn ∨ job ∈ pc'.waiting
  logged : d.opts.policy = .perOpSync → ∀ rec ∈ r, rec.key.isSome → ∃ job ∈ pc'.waiting,
    job.lsn = rec.lsn

theorem DurableVDB.Moves.awaits (hm : d.Moves K w env pc pc' d' r) : Awaits d d' pc pc' r := by
  cases hm with
  | stays => exact ⟨le_rfl, rfl, fun job hjob => .inr hjob, nofun⟩
  | logs req job wal ops hw hmut hlsn happ =>
    refine ⟨le_rfl, rfl, nofun, fun hpolicy rec hrec _ => ?_⟩
    cases hrec
    unfold DurableVDB.behindPrefix
    rw [hpolicy]
    exact ⟨job, rfl, (job.mutation.lsn_toRecord job.lsn).symm⟩
  | commits job hle => exact ⟨le_rfl, rfl, fun j hj => .inl (Option.some.inj hj ▸ hle), nofun⟩
  | leads job hlt hsync => exact ⟨le_rfl, rfl, fun j hj => .inr hj, nofun⟩
  | captures p name hfd =>
    exact ⟨le_rfl, rfl, fun j hj => .inr (by cases p <;> exact hj), nofun⟩
  | syncs p name target hsync =>
    exact ⟨le_rfl, rfl, fun j hj => .inr (by cases p <;> exact hj), nofun⟩
  | commitSynced job target hle =>
    exact ⟨d.le_credit target, rfl, fun j hj => .inl (Option.some.inj hj ▸ hle), nofun⟩
  | leadsAgain job target hlt => exact ⟨d.le_credit target, rfl, fun j hj => .inr hj, nofun⟩
  | flushed job target => exact ⟨d.le_credit target, rfl, nofun, nofun⟩
  | synced target => exact ⟨d.le_credit target, rfl, nofun, nofun⟩
  | credits reply lsn => exact ⟨d.le_credit lsn, rfl, nofun, nofun⟩
  | logsCheckpoint reply lsn wal happ =>
    refine ⟨le_rfl, rfl, nofun, fun _ rec hrec hkey => ?_⟩
    cases hrec
    cases hkey
  | _ => exact ⟨le_rfl, rfl, nofun, nofun⟩

end

namespace Chronicle

variable {config : VDBConfig} {c : Chronicle ι δ} {a : Action}

/-- What holds between the sections of calls of which none throws: under `PerOpSync` a record is
durable, or its call waits. -/
structure Synced (policy : Policy) (lsn : ℕ) (c : Chronicle ι δ) : Prop where
  opts : c.system.durable.opts.policy = policy
  durableLsn : lsn ≤ c.system.durable.durableLsn
  waiting : policy = .perOpSync → ∀ r ∈ c.log, r.key.isSome →
    r.lsn ≤ c.system.durable.durableLsn ∨ ∃ pc ∈ c.system.calls, ∃ job ∈ pc.waiting,
      job.lsn = r.lsn

variable {policy : Policy} {n : ℕ} {as : List Action}

theorem Synced.act (h : c.Synced policy n) (hreturns : ¬ (c.system.act K a).Thrown) :
    (c.act K a).Synced policy n := by
  have hstarts : ∀ pc : Pc δ, Synced policy n (⟨⟨c.system.durable, c.system.calls ++ [pc]⟩,
      c.log ++ (none : Option WalRecord).toList⟩ : Chronicle ι δ) := by
    intro pc
    rw [Option.toList_none, List.append_nil]
    refine ⟨h.opts, h.durableLsn, fun hpolicy r hr hkey => ?_⟩
    exact (h.waiting hpolicy r hr hkey).imp_right fun ⟨q, hq, hjob⟩ =>
      ⟨q, List.mem_append_left _ hq, hjob⟩
  unfold Chronicle.act
  cases a with
  | invoke req => exact hstarts _
  | checkpoint => exact hstarts _
  | sync => exact hstarts _
  | run i env =>
    have hran := c.system.act_ran K i env
    generalize c.system.act K (.run i env) = s', c.system.logged (.run i env) = r at hran hreturns ⊢
    cases hran with
    | idles =>
      rw [Option.toList_none, List.append_nil]
      exact h
    | throws pc e d' hi ht =>
      exact absurd ⟨e, List.mem_set (List.getElem?_eq_some_iff.1 hi).1 _⟩ hreturns
    | moves pc pc' d' r hi hm =>
      have hawaits := hm.awaits
      have hlt := (List.getElem?_eq_some_iff.1 hi).1
      refine ⟨(congrArg Options.policy hawaits.opts).trans h.opts,
        h.durableLsn.trans hawaits.durableLsn, fun hpolicy q hq hkey => ?_⟩
      rcases List.mem_append.1 hq with hq | hq
      · rcases h.waiting hpolicy q hq hkey with hle | ⟨p, hp, job, hjob, hlsn⟩
        · exact .inl (hle.trans hawaits.durableLsn)
        · by_cases hne : p = pc
          · subst hne
            rcases hawaits.waiting job hjob with hle | hjob'
            · exact .inl (hlsn ▸ hle)
            · exact .inr ⟨pc', List.mem_set hlt _, job, hjob', hlsn⟩
          · exact .inr ⟨p, mem_set_of_ne pc' hi hp hne, job, hjob, hlsn⟩
      · obtain ⟨job, hjob, hlsn⟩ :=
          hawaits.logged (h.opts.trans hpolicy) q (Option.mem_toList.1 hq) hkey
        exact .inr ⟨pc', List.mem_set hlt _, job, hjob, hlsn⟩

theorem Synced.run (h : c.Synced policy n)
    (hrun : Run.Along (Chronicle.act K) (fun c a => c.system.GoesOn K a) c as) :
    (as.foldl (Chronicle.act K) c).Synced policy n :=
  Run.Along.invariant (I := fun c => Synced policy n c) (fun _ _ hc ha => hc.act ha.returns) h hrun

/-- The records that are about a point. -/
def keyed (log : List WalRecord) : List WalRecord := log.filter (·.key.isSome)

omit [ColumnIndex ι] [Distance δ] in
theorem replayed_keyed (base : Logical) (n : ℕ) (log : List WalRecord) :
    replayed WalRecord.key (WalRecord.effect n) base (keyed log) =
      replayed WalRecord.key (WalRecord.effect n) base log := by
  funext x
  unfold replayed keyed
  rw [List.foldl_filter]
  congr 1
  funext p r
  cases r.key with
  | none => rfl
  | some y => rfl

theorem log_act (c : Chronicle ι δ) (a : Action) : (c.act K a).log = c.log ∨
    ∃ r, (c.act K a).log = c.log ++ [r] := by
  change c.log ++ (c.system.logged a).toList = _ ∨ ∃ r, c.log ++ _ = _
  cases c.system.logged a with
  | none => exact .inl (List.append_nil _)
  | some r => exact .inr ⟨r, rfl⟩

theorem log_front (as : List Action) (c : Chronicle ι δ) : c.log <+: (as.foldl (act K) c).log :=
  Run.log_front (f := fun c : Chronicle ι δ => c.log) log_act as c

theorem keyed_act (c : Chronicle ι δ) (a : Action) : keyed (c.act K a).log = keyed c.log ∨
    ∃ r, keyed (c.act K a).log = keyed c.log ++ [r] := by
  rcases log_act (K := K) c a with hsame | ⟨r, hnew⟩
  · exact .inl (congrArg keyed hsame)
  · unfold keyed
    rw [hnew, List.filter_append]
    by_cases hr : r.key.isSome
    · exact .inr ⟨r, by simp [hr]⟩
    · exact .inl (by simp [hr])

omit [ColumnIndex ι] [Distance δ] in
/-- A front of the log, whose records are below an lsn, is found up to there. -/
theorem keyed_front {front log : List WalRecord} (h : front <+: log)
    (hlt : ∀ r ∈ keyed front, r.lsn < n) : keyed front <+: keyed (log.filter (·.lsn < n)) := by
  have hsame : keyed (front.filter (·.lsn < n)) = keyed front := by
    unfold keyed at hlt ⊢
    rw [List.filter_filter]
    refine List.filter_congr fun r hr => ?_
    cases hkey : r.key.isSome with
    | false => rfl
    | true => exact decide_eq_true (hlt r (List.mem_filter.2 ⟨hr, hkey⟩))
  rw [← hsame]
  exact (h.filter _).filter _

omit [ColumnIndex ι] [Distance δ] in
theorem inProgress_of_waiting {pc : Pc δ} {job : Job} (h : job ∈ pc.waiting) : pc.InProgress := by
  cases pc with
  | returned | threw => cases h
  | _ => trivial

/-- What has been logged is durable from when all calls have ended. -/
theorem Synced.durable_of_idle (h : c.Synced .perOpSync n) (hidle : c.Idle)
    (hrun : Run.Along (Chronicle.act K) (fun c a => c.system.GoesOn K a) c as) :
    ∀ r ∈ keyed c.log, r.lsn ≤ (as.foldl (Chronicle.act K) c).system.durable.durableLsn := by
  intro r hr
  obtain ⟨hr, hkey⟩ := List.mem_filter.1 hr
  have hle : r.lsn ≤ c.system.durable.durableLsn := by
    refine (h.waiting rfl r hr hkey).resolve_right ?_
    rintro ⟨pc, hpc, job, hjob, -⟩
    exact hidle pc hpc (inProgress_of_waiting hjob)
  have hhere : c.Synced .perOpSync c.system.durable.durableLsn := ⟨h.opts, le_rfl, h.waiting⟩
  exact hle.trans (hhere.run hrun).durableLsn

/-- What a process finds after a crash is what a front of the calls makes; under `PerOpSync` they
are all in it that had returned. -/
structure Rebuilt (K : Kernels δ) (config : VDBConfig) (start : Chronicle ι δ) (as : List Action)
    (d : DurableVDB ι) (done : List Request) : Prop where
  issued : done <+: issued as
  logical : d.db.logical = (performed config.schema.length start.system.durable.db.nextExtId
    start.system.durable.db.logical done).points
  returned : start.system.durable.opts.policy = .perOpSync → ∀ front, front <+: as →
    (front.foldl (act K) start).Idle → Durable.issued front <+: done
  fresh : ∀ x ∈ (performed config.schema.length start.system.durable.db.nextExtId
    start.system.durable.db.logical done).minted, x < d.db.nextExtId

/-- A process has just opened the files: all that it has found counts as durable. -/
structure Opened (K : Kernels δ) (config : VDBConfig) (c : Chronicle ι δ) : Prop where
  calls : c.system.calls = []
  credited : ∀ r ∈ c.log, r.lsn ≤ c.system.durable.durableLsn
  replays : ∃ db₀, c.restored config = some db₀ ∧ applyAll (DurableVDB.applyRecord K)
    ((c.behind config).map WalRecord.carried) db₀ = .ok () c.system.durable.db

theorem Opened.carries {start : Chronicle ι δ} (h : start.Opened K config)
    (hb : Backed config start) :
    start.Carries config start.system.durable.db.nextExtId start.system.durable.db.logical
      [] [] where
  solo := by
    unfold System.Solo
    rw [h.calls]
    exact Nat.zero_le 1
  looksUp := by
    rw [h.calls]
    exact nofun
  makes := by
    refine ⟨[], List.prefix_rfl, by rw [h.calls]; rfl, ?_, rfl, nofun⟩
    funext x
    refine (hb.ok.faithful.settled x ?_).symm
    unfold System.tasks
    rw [h.calls]
    exact nofun

omit [ColumnIndex ι] [Distance δ] in
/-- The id that a record gives out is the one that it is about. -/
theorem key_of_minted {r : WalRecord} {x : ExternalId} (h : r.minted = some x) : r.key.isSome := by
  obtain ⟨type, lsn, ext, vec, rec⟩ := r
  cases type with
  | insert => rfl
  | _ => cases h

/-- **A process that opens the files** finds what a front of the calls makes. -/
theorem rebuilt {start c' : Chronicle ι δ} (hb : Backed config start)
    (hopened : start.Opened K config)
    (hrun : Run.Along (act K) (fun c a => c.system.GoesOn K a) start as)
    (hlog : c'.log = (as.foldl (act K) start).log)
    (hlsn : c'.system.durable.durableLsn = (as.foldl (act K) start).system.durable.durableLsn)
    {d : DurableVDB ι} (hd : Recovered config c' d) : ∃ done, Rebuilt K config start as d done := by
  have hstart : start.Synced start.system.durable.opts.policy start.system.durable.durableLsn :=
    ⟨rfl, le_rfl, fun _ r hr _ => .inl (hopened.credited r hr)⟩
  -- what is found has all that was durable
  set log := (as.foldl (act K) start).log with hc
  have hthrough : ∀ r ∈ log, r.lsn ≤ (as.foldl (act K) start).system.durable.durableLsn →
      r.lsn < d.nextLsn := by
    rw [← hlog, ← hlsn]
    exact hd.durable
  have hfirst : keyed start.log <+: keyed (log.filter (·.lsn < d.nextLsn)) := by
    refine keyed_front (log_front as start) fun r hr => ?_
    have hr := List.mem_of_mem_filter hr
    exact hthrough r ((log_front as start).subset hr)
      ((hopened.credited r hr).trans (hstart.run hrun).durableLsn)
  have hlast : keyed (log.filter (·.lsn < d.nextLsn)) <+: keyed log := by
    refine (filter_front ?_).filter _
    refine (List.pairwise_map.1 (backed_run hb hrun).ok.ordered).imp fun hlt hq => ?_
    exact decide_eq_true (hlt.trans (of_decide_eq_true hq))
  -- and is the log of a front of the run
  obtain ⟨before, ⟨after, has⟩, hkeyed, hlongest⟩ := Run.exists_front
    (f := fun c : Chronicle ι δ => keyed c.log) keyed_act as start hfirst hlast
  obtain ⟨hbefore, -⟩ := Run.Along.append.1 (has ▸ hrun)
  obtain ⟨done, -, hreqs, hdone⟩ := ((hopened.carries hb).run hb hbefore).makes
  rw [List.nil_append] at hreqs
  refine ⟨done, ?_, ?_, fun hpolicy front hfront hidle => ?_, fun x hx => ?_⟩
  · refine List.IsPrefix.trans ⟨_, hreqs.symm⟩ ?_
    rw [← has, issued, issued, List.filterMap_append]
    exact List.prefix_append ..
  · rw [hd.replayed, hlog, ← hdone.points, ← replayed_keyed _ _ (log.filter _), ← hkeyed,
      replayed_keyed]
  · -- those in front have ended before what has been found ends
    have hle : front <+: before := by
      refine hlongest front hfront ?_
      obtain ⟨behind, rfl⟩ := hfront
      obtain ⟨hran, hleft⟩ := Run.Along.append.1 hrun
      have hthere := hstart.run hran
      rw [hpolicy] at hthere
      have hlater : (front.foldl (act K) start).log <+: log := by
        rw [hc, List.foldl_append]
        exact log_front behind _
      refine keyed_front hlater fun r hr => ?_
      have hdurable := hthere.durable_of_idle hidle hleft r hr
      rw [← List.foldl_append] at hdurable
      exact hthrough r (hlater.subset (List.mem_of_mem_filter hr)) hdurable
    obtain ⟨rest, rfl⟩ := hle
    obtain ⟨hran, hleft⟩ := Run.Along.append.1 hbefore
    have hcarries := (hopened.carries hb).run hb hran
    obtain ⟨done', hfront', hreqs', -⟩ :=
      ((hcarries.idle hidle).1.run (backed_run hb hran) hleft).makes
    have hsame : done' = done := by
      rw [List.nil_append, ← List.foldl_append] at hreqs'
      rw [issued, List.filterMap_append] at hreqs
      exact List.append_cancel_right (hreqs'.symm.trans hreqs)
    rw [List.nil_append] at hfront'
    exact hsame ▸ hfront'
  · obtain ⟨r, hr, hminted⟩ := List.mem_filterMap.1 (hdone.minted x hx)
    refine hd.fresh x (List.mem_filterMap.2 ⟨r, ?_, hminted⟩)
    have hfound : r ∈ keyed (log.filter (·.lsn < d.nextLsn)) :=
      hkeyed ▸ List.mem_filter.2 ⟨hr, key_of_minted hminted⟩
    rw [hlog]
    exact List.mem_of_mem_filter hfound

end Chronicle

end Durable

end Vdb
