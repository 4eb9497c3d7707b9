import Vdb.Durable.Durability
import Mathlib.Order.Lattice.Nat

/-!
# What `durable_lsn_` promises

Under `PerOpSync`, with every `fsync` succeeding, a caller relies on three things: `durable_lsn_` is
no larger than the stable part of the log, `group_commit_` returns when the record is in it, and
nothing is to be seen of a mutation before.

* `Traced.Credits` : these three, between two sections of a run.
* `Traced.credits_iff` : they hold in every run if and only if the constructor has found no record
  that is not on stable storage.
* `Traced.credits_killed` : a process that is killed leaves such a record.
-/

namespace Vdb

namespace Durable

open Metadata Database

/-- What the `fsync` of a section does. -/
def Action.fsync : Action → Option Bytes
  | .run _ env => env.fsync
  | _ => none

/-- The job of a call whose next section may be the last one of `group_commit_`. -/
def Pc.commits {δ : Type} : Pc δ → Option Job
  | .commit job => some job
  | .synced (.groupCommit job) _ => some job
  | _ => none

namespace Traced

variable {ι δ : Type} [ColumnIndex ι] [Distance δ] {K : Kernels δ} {t : Traced ι δ}

/-- What a caller relies on. -/
structure Credits (K : Kernels δ) (t : Traced ι δ) : Prop where
  /-- `durable_lsn_` is at most the largest lsn up to which every record is durable. -/
  mark : ∃ last, IsGreatest {lsn | lsn < t.system.durable.nextLsn ∧ t.Covers lsn} last ∧
    t.system.durable.durableLsn ≤ last
  /-- A call that leaves `group_commit_` has its record and all before it durable. -/
  commits : ∀ i env pc job, t.system.calls[i]? = some pc → pc.commits = some job →
    (t.act K (.run i env)).system.calls[i]? = some (.apply job) →
      (t.act K (.run i env)).Logs job ∧ (t.act K (.run i env)).Covers job.lsn
  /-- Only such a call changes what the database shows. -/
  visible : ∀ a, (t.act K a).system.durable.db.logical ≠ t.system.durable.db.logical →
    ∃ i env pc job, a = .run i env ∧ t.system.calls[i]? = some pc ∧ pc.committed = some job ∧
      t.Logs job ∧ t.Covers job.lsn

omit [ColumnIndex ι] [Distance δ] in
theorem Covers.mono {lsn lsn' : ℕ} (h : t.Covers lsn') (hle : lsn ≤ lsn') : t.Covers lsn :=
  fun p hp hp' => h p hp (hp'.trans hle)

omit [ColumnIndex ι] [Distance δ] in
/-- There is a largest lsn up to which every record is durable. -/
theorem Inv.exists_mark (h : t.Inv) :
    ∃ last, IsGreatest {lsn | lsn < t.system.durable.nextLsn ∧ t.Covers lsn} last := by
  have hnonempty : {lsn | lsn < t.system.durable.nextLsn ∧ t.Covers lsn}.Nonempty :=
    ⟨_, h.durable, h.covers⟩
  have hbounded : BddAbove {lsn | lsn < t.system.durable.nextLsn ∧ t.Covers lsn} :=
    ⟨_, fun _ hlsn => hlsn.1.le⟩
  exact ⟨_, Nat.sSup_mem hnonempty hbounded, fun _ hlsn => le_csSup hbounded hlsn⟩

omit [Distance δ] in
theorem logical_reserved (db : VDB ι) (req : Request) :
    (req.reserved db).logical = db.logical := by
  cases req <;> rfl

theorem Inv.credits (h : t.Inv) (hpolicy : t.system.durable.opts.policy = .perOpSync)
    (hnext : ∀ a, (t.act K a).Honest K) : t.Credits K := by
  have hhonest : t.Honest K := h.honest hpolicy
  obtain ⟨last, hlast⟩ := h.exists_mark
  refine ⟨⟨last, hlast, hlast.2 ⟨h.durable, h.covers⟩⟩, fun i env pc job _ _ hleaves => ?_,
    fun a hchanges => ?_⟩
  · exact (hnext _).committed _ (List.mem_of_getElem? hleaves) job rfl
  · rcases hhonest.visible a with hsame | ⟨req, hreserved⟩ | ⟨i, env, pc, job, ha, hi, hjob⟩
    · exact absurd (congrArg VDB.logical hsame) hchanges
    · exact absurd ((congrArg VDB.logical hreserved).trans (logical_reserved _ req)) hchanges
    · obtain ⟨hlogs, hcovers⟩ := hhonest.committed pc (List.mem_of_getElem? hi) job hjob
      exact ⟨i, env, pc, job, ha, hi, hjob, hlogs, hcovers⟩

variable {config : VDBConfig} {opts : Options} {walDir : Bytes} {files : Dir}
  {snapshot : Option Bytes} {d : DurableVDB ι} {cs : List Content}

theorem Credits.settled (hopen : DurableVDB.open K config opts walDir files snapshot = .ok d)
    (hfound : Wal.Found files (openerOf config) cs) (h : (start d cs).Credits K) : Settled cs := by
  obtain ⟨last, hlast, hle⟩ := h.mark
  exact (covers_start_iff hopen hfound).1 (hlast.1.2.mono hle)

/-- **A caller can rely on `durable_lsn_`** in every run in which no `fsync` fails, if and only if
the constructor has found nothing that is not on stable storage. -/
theorem credits_iff (hopen : DurableVDB.open K config opts walDir files snapshot = .ok d)
    (hfound : Wal.Found files (openerOf config) cs) (hpolicy : opts.policy = .perOpSync) :
    (∀ as : List Action, (∀ a ∈ as, a.fsync = none) →
      (as.foldl (act K) (start d cs)).Credits K) ↔ Settled cs := by
  constructor
  · exact fun h => (h [] nofun).settled hopen hfound
  · intro hsettled as _
    obtain ⟨hinv, hopts⟩ := inv_run hopen hfound hsettled as
    refine hinv.credits (hopts.symm ▸ hpolicy) fun a => ?_
    obtain ⟨hinv', hopts'⟩ := inv_run hopen hfound hsettled (as ++ [a])
    rw [List.foldl_append] at hinv' hopts'
    exact hinv'.honest (hopts'.symm ▸ hpolicy)

open Database.System (onePlace smallConfig)

/-- Two inserts of which the first one leads the commit of both, and a `sync` among them. -/
def synced : List Action :=
  [.invoke (.insert [1] {}), .invoke (.insert [1] {}), .sync, .run 0 {}, .run 1 {}, .run 0 {},
    .run 1 {}, .run 0 {}, .run 2 {}, .run 2 {}, .run 0 {}, .run 1 {}, .run 2 {}, .run 0 {}]

theorem credits_synced : (synced.foldl (act onePlace) (start waiting [])).Credits onePlace :=
  (credits_iff open_waiting (found_nothing _) rfl).2 nofun synced (by decide)

/-- A process that is killed between the append of an insert and its `fsync`. -/
def killed : System PairIndex ℕ :=
  [Action.invoke (.insert [1] {}), .run 0 {}].foldl (System.act onePlace) { durable := waiting }

/-- The segment that it leaves, of which the header is on stable storage. -/
def unsyncedInsert : Content where
  number := 1
  records := [{ type := .insert, lsn := 1, extId := 0, vec := [1] }]
  synced := walHeaderSize

/-- The next process credits the insert at once. -/
theorem credits_killed : ∃ d : DurableVDB PairIndex,
    DurableVDB.open onePlace smallConfig { policy := .perOpSync } (ascii "wal")
      killed.durable.wal.files none = .ok d ∧ d.durableLsn = 1 ∧
    Wal.Found killed.durable.wal.files (openerOf smallConfig) [unsyncedInsert] ∧
    ¬ ∀ as : List Action, (∀ a ∈ as, a.fsync = none) →
      (as.foldl (act onePlace) (start d [unsyncedInsert])).Credits onePlace := by
  have hfound : Wal.Found killed.durable.wal.files (openerOf smallConfig) [unsyncedInsert] :=
    ⟨by decide +kernel, ⟨by decide, by decide⟩, by decide +kernel, nofun,
      fun c hc => .inl (by rw [List.mem_singleton.1 hc]; rfl)⟩
  have hopens : ((DurableVDB.open (ι := PairIndex) onePlace smallConfig { policy := .perOpSync }
      (ascii "wal") killed.durable.wal.files none).toOption.map DurableVDB.durableLsn) =
          some 1 := by
    decide +kernel
  obtain ⟨d, hopen, hlsn⟩ := Option.map_eq_some_iff.1 hopens
  have hopen := toOption_eq_some.1 hopen
  refine ⟨d, hopen, hlsn, hfound, fun h => ?_⟩
  have hsettled := (h [] nofun).settled hopen hfound
  exact absurd (hsettled _ (List.mem_singleton_self _)) (by decide +kernel)

end Traced

end Durable

end Vdb
