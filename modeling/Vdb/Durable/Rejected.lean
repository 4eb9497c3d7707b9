import Vdb.Durable.Recovery

/-!
# Rejected records

A call that throws behind its prefix has its record in the log, and stays in flight for good: no
checkpoint gets to its snapshot any more.  What it has logged is replayed all the same.

* `Chronicle.Reopens` : whether a process can open what is left, after an outage or after the last
  process has come to an end.
* `Chronicle.reopens_run` : it can if and only if every record passes that it finds behind the
  snapshot, unless there is no room.
-/

namespace Vdb

namespace Durable

open Metadata Database

variable {ι δ : Type} [ColumnIndex ι] [Distance δ]

/-- What is asked of an action: as of a careful one, but that any call may throw. -/
structure System.Sane (K : Kernels δ) (s : System ι δ) (a : Action) : Prop where
  apart : ∀ r ∈ s.logged a, ∀ t ∈ s.tasks, r.key ≠ some t.ext
  bools : ∀ r ∈ s.logged a, r.metadata.BoolsOk
  counts : s.durable.db.nextExtId + 1 < 2 ^ 64
  fits : (s.act K a).durable.db.Fits

instance System.decidableSane (K : Kernels δ) (s : System ι δ) (a : Action) :
    Decidable (s.Sane K a) :=
  decidable_of_iff ((∀ r ∈ s.logged a, ∀ t ∈ s.tasks, r.key ≠ some t.ext) ∧
      (∀ r ∈ s.logged a, r.metadata.BoolsOk) ∧ s.durable.db.nextExtId + 1 < 2 ^ 64 ∧
        (s.act K a).durable.db.Fits)
    ⟨fun ⟨h1, h2, h3, h4⟩ => ⟨h1, h2, h3, h4⟩, fun ⟨h1, h2, h3, h4⟩ => ⟨h1, h2, h3, h4⟩⟩

/-! ### A call that has thrown behind its prefix -/

/-- More calls count as in flight than are, and no checkpoint saves the database. -/
structure System.Stuck (s : System ι δ) : Prop where
  more : s.inFlight < s.durable.inFlight
  drains : ∀ reply, .save reply ∉ s.calls

section

variable {K : Kernels δ} {config : VDBConfig} {walDir : Bytes} {s : System ι δ}
  {c : Chronicle ι δ} {a : Action}

/-- No checkpoint is drained while something is in flight. -/
theorem System.drains_act (h : ∀ reply, .save reply ∉ s.calls)
    (hin : 0 < (s.act K a).durable.inFlight) (reply : Reply) :
    .save reply ∉ (s.act K a).calls := by
  have hacts := s.act_acts K a
  generalize s.act K a = s', s.logged a = r at hacts hin ⊢
  cases hacts with
  | starts pc hpc =>
    rw [List.mem_append, List.mem_singleton]
    rintro (hmem | rfl)
    · exact h reply hmem
    · rcases hpc with ⟨req, hpc⟩ | hpc | hpc
      · cases req <;> cases hpc
      · cases hpc
      · cases hpc
  | idles => exact h reply
  | moves i env pc pc' d' r hrun hi hm =>
    intro hmem
    rcases List.mem_or_eq_of_mem_set hmem with hmem | heq
    · exact h reply hmem
    · rcases hm.steps.saves reply heq.symm with rfl | hnone
      · exact h reply (List.mem_of_getElem? hi)
      · exact hin.ne' hnone
  | throws i env pc e d' hrun hi ht =>
    intro hmem
    rcases List.mem_or_eq_of_mem_set hmem with hmem | heq
    · exact h reply hmem
    · cases heq

theorem System.Stuck.act (h : s.Stuck) : (s.act K a).Stuck := by
  have hstep := System.act_inFlight (K := K) h.more.le a
  have hmore : (s.act K a).inFlight < (s.act K a).durable.inFlight := by
    have := h.more
    omega
  exact ⟨hmore, System.drains_act h.drains (Nat.zero_lt_of_lt hmore)⟩

/-- A call throws behind its prefix. -/
theorem System.Truthful.stuck (h : s.Truthful)
    (hquiet : ∀ reply, .save reply ∈ s.calls → s.durable.inFlight = 0) (ha : s.Strands K a) :
    (s.act K a).Stuck := by
  have hstep := System.act_inFlight (K := K) h.inFlight.ge a
  rw [if_pos ha, h.inFlight] at hstep
  have hmore : (s.act K a).inFlight < (s.act K a).durable.inFlight := by omega
  refine ⟨hmore, System.drains_act (fun reply hmem => ?_) (Nat.zero_lt_of_lt hmore)⟩
  -- the call that throws is in flight, so that no checkpoint has been drained
  cases a with
  | run i env =>
    obtain ⟨pc, hi, hfails⟩ := ha
    have hin : 0 < s.durable.inFlight := by
      rw [h.inFlight]
      exact List.countP_pos_iff.2 ⟨pc, List.mem_of_getElem? hi, System.fails_counted hfails⟩
    exact hin.ne' (hquiet reply hmem)
  | _ => exact ha

/-- What holds between two events: as long as no call has thrown behind its prefix the database is
what the records say, and no snapshot is saved later. -/
structure Lasting (config : VDBConfig) (c : Chronicle ι δ) : Prop where
  stored : Stored config c
  saves : c.Ok config (fun _ => none) none ∨ c.system.Stuck

/-- **One action** keeps this. -/
theorem Lasting.act (h : Lasting config c) (hc : c.system.Sane K a) (hw : c.system.Writable a) :
    Lasting config (c.act K a) := by
  refine ⟨h.stored.act hc.bools hc.counts hw fun hsaves => ?_, ?_⟩
  · rcases h.saves with hok | hstuck
    · exact hok.saves hsaves
    · cases a with
      | run i env =>
        obtain ⟨reply, hi⟩ := System.saves_iff.1 hsaves
        exact absurd (List.mem_of_getElem? hi) (hstuck.drains reply)
      | _ => exact hsaves.elim
  · rcases h.saves with hok | hstuck
    · by_cases hstrands : c.system.Strands K a
      · exact .inr (hok.truthful.stuck hok.quiet hstrands)
      · exact .inl (hok.act ⟨hstrands, hc.apart, hc.bools, hc.counts, hc.fits⟩)
    · exact .inr hstuck.act

end

/-! ### Whether a process can open what is left -/

namespace Chronicle

variable (K : Kernels δ) (config : VDBConfig) (walDir : Bytes) (c : Chronicle ι δ)

/-- The lsn that `load_snapshot` gives. -/
def snapshotLsn : ℕ :=
  match VDB.new config with
  | .error _ => 0
  | .ok db =>
    match (c.system.durable.withDb db).loadSnapshot with
    | .error _ _ => 0
    | .ok lsn _ => lsn

/-- The records behind the snapshot. -/
def behind : List WalRecord := c.log.filter (c.snapshotLsn config < ·.lsn)

/-- What is asked of an event. -/
def Tame : Event → Prop
  | .act a => c.system.Sane K a ∧ c.system.Writable a
  | .outage kept opts => Opens (c.reopened K config walDir kept opts)

instance decidableTame : DecidablePred (c.Tame K config walDir)
  | .act a => inferInstanceAs (Decidable (c.system.Sane K a ∧ c.system.Writable a))
  | .outage kept opts => inferInstanceAs (Decidable (Opens (c.reopened K config walDir kept opts)))

/-- A process finds `left` behind the snapshot: at least what is durable, and everything if no byte
is lost.  It opens the files if and only if these records pass, unless there is no room. -/
structure Reopens (kept : Bytes → ℕ) (opts : Options) (left : List WalRecord) : Prop where
  front : left <+: c.behind config
  durable : ∀ r ∈ c.behind config, r.lsn ≤ c.system.durable.durableLsn → r ∈ left
  whole : (∀ e ∈ c.system.durable.wal.files, e.2.bytes.length ≤ kept e.1) → left = c.behind config
  accepted : ∀ d, c.reopened K config walDir kept opts = .ok d →
    ∀ r ∈ left, r.Accepted config.schema
  returns : (∀ r ∈ left, r.Accepted config.schema) →
    ∀ e, c.reopened K config walDir kept opts = .error e → e.OutOfRoom

variable {K config walDir c}

omit [Distance δ] in
theorem snapshotLsn_eq {lsn : ℕ} {db₀ db : VDB ι} (hnew : VDB.new config = .ok db₀)
    (hdim : config.dim < 2 ^ 32) (h : IsImage config c.system.durable.snapshot lsn db)
    (hrest : db.AtRest config) : c.snapshotLsn config = lsn := by
  obtain ⟨db₁, hload⟩ := h.loads hrest hdim hnew
  unfold snapshotLsn
  rw [hnew]
  dsimp only
  rcases hload with ⟨hnone, rfl, -⟩ | ⟨bytes, rest, hsome, hbytes⟩
  · simp [DurableVDB.loadSnapshot, DurableVDB.withDb, hnone]
  · simp [DurableVDB.loadSnapshot, DurableVDB.withDb, hsome, hbytes]

theorem lasting_step (h : Lasting config c) (hdim : config.dim < 2 ^ 32) {e : Event}
    (he : c.Tame K config walDir e) : Lasting config (c.step K config walDir e) := by
  cases e with
  | act a => exact h.act he.1 he.2
  | outage kept opts =>
    have hopens : Opens (c.reopened K config walDir kept opts) := he
    dsimp only [step]
    cases hopen : c.reopened K config walDir kept opts with
    | error e =>
      rw [hopen] at hopens
      exact hopens.elim
    | ok d =>
      rw [hopen] at hopens
      obtain ⟨hstored, hok⟩ := (outage h.stored hdim hopen hopens).1
      exact ⟨hstored, .inl hok⟩

theorem reopens_of_stored [BoundedColumnIndex ι] (h : Stored config c) (hdim : config.dim < 2 ^ 32)
    {db₀ : VDB ι} (hnew : VDB.new config = .ok db₀) (kept : Bytes → ℕ) (opts : Options) :
    ∃ left, c.Reopens K config walDir kept opts left := by
  obtain ⟨lsn, db, cs, rs, himage, hfound, -, -, hfront, hsub, hnewer, hdurable, hwhole⟩ :=
    h.outage kept
  have hlsn : c.snapshotLsn config = lsn := snapshotLsn_eq hnew hdim himage.file himage.rest
  have hbehind : c.behind config = rs.filter (lsn < ·.lsn) := by rw [behind, hlsn, hnewer]
  have hmem : (leftOf cs).records ⊆ c.log := fun r hr => hsub.subset (hfront.subset hr)
  refine ⟨(leftOf cs).records.filter (lsn < ·.lsn), ?_, fun r hr hle => ?_, fun hall => ?_,
    fun d hopen r hr => ?_, fun haccepted e hopen => ?_⟩
  · rw [hbehind]
    exact hfront.filter _
  · rw [behind, hlsn] at hr
    obtain ⟨hr, hlt⟩ := List.mem_filter.1 hr
    exact List.mem_filter.2 ⟨hdurable r hr (of_decide_eq_true hlt) hle, hlt⟩
  · rw [hbehind, hwhole hall]
  · obtain ⟨hr, hlt⟩ := List.mem_filter.1 hr
    exact himage.accepted h.history hdim hopen hfound hmem r hr (of_decide_eq_true hlt)
  · refine himage.opens h.history hdim hnew hfound hmem (fun r hr hlt => haccepted r ?_) hopen
    exact List.mem_filter.2 ⟨hr, decide_eq_true hlt⟩

open Database.System (onePlace smallConfig)

/-- An insert, and one whose record has an attribute too many: it throws when it is durable. -/
def poisoned : List Event :=
  .act (.invoke (.insert [1] {})) :: List.replicate 10 (.act (.run 0 {})) ++
    .act (.invoke (.insert [2] { attrs := [{}] })) :: List.replicate 6 (.act (.run 1 {}))

end Chronicle

end Durable

end Vdb
