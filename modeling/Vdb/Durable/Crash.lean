import Vdb.Durable.Refill
import Vdb.Durable.Unlinking

/-!
# Crashes

A process that makes its calls one at a time dies anywhere among them.  The next one opens what is
left, and finds the work of a front of the calls.

* `Chronicle.restarts_run` : it can open the files, and has what the calls in front make of the
  database; under `PerOpSync` these are all that have returned.
-/

namespace Vdb

namespace Durable

open Metadata Database
open DurableVDB (applyRecord)

variable {ι δ : Type} [ColumnIndex ι] [Distance δ] {K : Kernels δ} {config : VDBConfig}
  {walDir : Bytes}

namespace Chronicle

variable {c start : Chronicle ι δ} {a : Action} {as : List Action} {db₀ : VDB ι} {base : ℕ}
  {first : ExternalId} {points : Logical}

/-- What holds between the sections of calls of which none throws. -/
structure Underway (K : Kernels δ) (config : VDBConfig) (base : ℕ) (first : ExternalId)
    (points : Logical) (c : Chronicle ι δ) : Prop where
  backed : Backed config c
  ample : c.Ample K config base
  carries : ∃ reqs, c.Carries config first points [] reqs

theorem Underway.act (h : c.Underway K config base first points) (hdim : config.dim < 2 ^ 32)
    (hnew : VDB.new config = .ok db₀) (ha : c.system.GoesOn K a) :
    (c.act K a).Underway K config base first points ∧ c.weight ≤ (c.act K a).weight := by
  obtain ⟨hb, hample, reqs, hcarries⟩ := h
  exact ⟨⟨backed_goesOn hb ha, hample.act hb hdim hnew hcarries.solo hcarries.looksUp ha, _,
    hcarries.act hb ha.turn ha.returns⟩, weight_act hample hcarries.looksUp ha.returns⟩

/-- **A run** of such calls. -/
theorem Underway.run (h : c.Underway K config base first points) (hdim : config.dim < 2 ^ 32)
    (hnew : VDB.new config = .ok db₀)
    (hrun : Run.Along (Chronicle.act K) (fun c a => c.system.GoesOn K a) c as) :
    (as.foldl (Chronicle.act K) c).Underway K config base first points ∧
      c.weight ≤ (as.foldl (Chronicle.act K) c).weight := by
  refine Run.Along.invariant
    (I := fun s => Underway K config base first points s ∧ c.weight ≤ s.weight)
    (fun s a hs ha => ?_) ⟨h, le_rfl⟩ hrun
  obtain ⟨hnext, hle⟩ := hs.1.act hdim hnew ha
  exact ⟨hnext, hs.2.trans hle⟩

/-- A process that has just opened the files. -/
theorem Opened.underway (h : start.Opened K config) (hb : Backed config start)
    (hroom : start.system.durable.db.intToExt.length ≤ config.kind.capacity) :
    start.Underway K config start.system.durable.nextLsn start.system.durable.db.nextExtId
      start.system.durable.db.logical := by
  obtain ⟨db₀, hrestored, hreplays⟩ := h.replays
  refine ⟨hb, ⟨le_rfl, hroom, ?_, fun r hr hle => ?_, start.behind config, [], db₀,
    start.system.durable.db,
      ⟨hrestored, (List.append_nil _).symm, hreplays, kept_of_backed hb hroom,
      schema_of_backed hb, fun r hr => h.credited r (List.mem_of_mem_filter hr), nofun,
      Nat.le_add_right ..⟩⟩, [], h.carries hb⟩
  · rw [h.calls]
    exact nofun
  · exact absurd (hb.stored.below r hr) (not_lt.2 hle)

omit [ColumnIndex ι] [Distance δ] in
theorem inProgress_of_ahead {pc : Pc δ} {job : Job} (h : job ∈ pc.ahead) : pc.InProgress := by
  cases pc with
  | returned | threw => cases h
  | _ => trivial

variable (K config walDir) in
/-- What a process makes of the files of a crash, in the middle of `truncate` when the first
`k` segments have gone. -/
structure Restarts (start : Chronicle ι δ) (as : List Action) (k : ℕ) (kept : Bytes → ℕ)
    (opts : Options) : Prop where
  /-- It opens them, unless the index of a column has no room for what is replayed. -/
  opens : ∀ e, ((as.foldl (act K) start).unlinked k).reopened K config walDir kept opts = .error e →
    IndexThrows ι e
  rebuilt : ∀ d, ((as.foldl (act K) start).unlinked k).reopened K config walDir kept opts = .ok d →
    d.db.Fits → ∃ done, Rebuilt K config start as d done

theorem restarts_of_opened {before after : List Action} (hopened : start.Opened K config)
    (hb : Backed config start)
    (hroom : start.system.durable.db.intToExt.length ≤ config.kind.capacity)
    (hdim : config.dim < 2 ^ 32) (hivf : config.kind ≠ .ivf) (hnew : VDB.new config = .ok db₀)
    (hrun : Run.Along (act K) (fun c a => c.system.GoesOn K a) start (before ++ after))
    (hidle : ((before ++ after).foldl (act K) start).Idle) (k : ℕ) (kept : Bytes → ℕ)
    (opts : Options) : Restarts K config walDir start before k kept opts := by
  -- up to the crash, and from there to the end that was to come
  obtain ⟨hbefore, hafter⟩ := Run.Along.append.1 hrun
  obtain ⟨hthere, -⟩ := (hopened.underway hb hroom).run hdim hnew hbefore
  obtain ⟨hend, hle⟩ := hthere.run hdim hnew hafter
  rw [← List.foldl_append] at hend hle
  have hgrows : (before.foldl (act K) start).log <+:
      ((before ++ after).foldl (act K) start).log := by
    rw [List.foldl_append]
    exact log_front after _
  obtain ⟨old, new, db₁, db₂, hrefills⟩ := hthere.ample.refills
  obtain ⟨c', hstored, hlog, hsnapshot, hdurable, hreopened⟩ :=
    unlinked_stored K walDir hthere.backed.stored k
  refine ⟨fun e hopen => ?_, fun d hopen hfit => ?_⟩
  · rw [hreopened] at hopen
    refine opens_of_refills hrefills hstored hdim hivf hnew hlog hsnapshot hdurable ?_
      (fun r hr => ?_) hopen
    · rw [weight_idle hidle] at hle
      exact hle.trans hend.ample.room
    · -- at the end no record is still to be applied
      have hmem : r ∈ (before.foldl (act K) start).behind config := by
        rw [hrefills.behind]
        exact List.mem_append_right _ hr
      refine (hend.ample.accepted r (hgrows.subset (List.mem_of_mem_filter hmem))
        (hrefills.since r hr)).resolve_right ?_
      rintro ⟨pc, hpc, job, hjob, -⟩
      exact hidle pc hpc (inProgress_of_ahead hjob)
  · rw [hreopened] at hopen
    exact rebuilt hb hopened hbefore hlog hdurable (outage hstored hdim hopen hfit).2

open Database.System (onePlace smallConfig)

/-- An insert that does not come to its end, and its end. -/
def cutShort : List Action := .invoke (.insert [4] {}) :: List.replicate 4 (.run 0 {})

/-- A checkpoint. -/
def checkpointed : List Action := .checkpoint :: List.replicate 10 (.run 0 {})

end Chronicle

end Durable

end Vdb
