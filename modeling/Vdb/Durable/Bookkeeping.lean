import Vdb.Durable.Concurrent
import Vdb.Database.Interleaving

/-!
# The accounting of commits

`in_flight_` counts the mutators between their prefix and `finish_op_`, and `syncing_` says that one
of them is in `wal_.sync()`.  Both are set and cleared by hand, so a call that throws in between
leaves them as they are.

* `System.truthful_iff` : the accounting is right at the end of a run if and only if no call has
  thrown behind its prefix.
* `System.rejected_record` : a call whose record does not match the schema throws there.
-/

namespace Vdb

namespace Durable

open Metadata Database

/-- A call of this kind is replaced in a list. -/
theorem countP_set_toNat {α : Type} {l : List α} {i : ℕ} {a : α} (p : α → Bool) (b : α)
    (h : l[i]? = some a) : (l.set i b).countP p + (p a).toNat = l.countP p + (p b).toNat := by
  induction l generalizing i with
  | nil => cases h
  | cons x l ih =>
    cases i with
    | zero =>
      cases h
      rw [List.set_cons_zero, List.countP_cons, List.countP_cons]
      cases p a <;> cases p b <;> rfl
    | succ i =>
      have := ih h
      rw [List.set_cons_succ, List.countP_cons, List.countP_cons]
      omega

namespace Pc

variable {δ : Type}

/-- It counts as in flight. -/
def Counted (pc : Pc δ) : Bool := pc.job.isSome

end Pc

namespace DurableVDB

variable {ι δ : Type} [ColumnIndex ι] [Distance δ] {K : Kernels δ} {d d' : DurableVDB ι} {w : Bool}
  {pc pc' : Pc δ} {env : Env} {job : Job} {e : Exn}

omit [ColumnIndex ι] [Distance δ] in
/-- A turn of `group_commit_` sets the flag only for its own call. -/
theorem commitTurn_ok (h : d.commitTurn (δ := δ) job = .ok pc d') :
    d'.inFlight = d.inFlight ∧ pc.Counted = true ∧
        (d'.syncing = true → pc.Syncs ∨ d.syncing = true) := by
  unfold commitTurn at h
  split_ifs at h
  · cases h
    exact ⟨rfl, rfl, .inr⟩
  · cases h
    exact ⟨rfl, rfl, .inr⟩
  · cases h
    exact ⟨rfl, rfl, fun _ => .inl trivial⟩

omit [ColumnIndex ι] [Distance δ] in
theorem counted_behindPrefix (d : DurableVDB ι) (job : Job) :
    (d.behindPrefix job : Pc δ).Counted = true := by
  unfold behindPrefix
  split <;> rfl

omit [ColumnIndex ι] [Distance δ] in
theorem counted_behindApply (d : DurableVDB ι) (job : Job) :
    (d.behindApply job : Pc δ).Counted = true := by
  unfold behindApply
  split <;> rfl

/-- A section that returns keeps the count in step with where its call is, and leaves the flag set
only for a call that is still in `wal_.sync()`. -/
theorem runSection_ok (h : d.runSection K w pc env = .ok pc' d')
    (hpos : pc.Counted = true → 0 < d.inFlight) :
    d'.inFlight + pc.Counted.toNat = d.inFlight + pc'.Counted.toNat ∧
      (d'.syncing = true → pc'.Syncs ∨ d.syncing = true ∧ ¬ pc.Syncs) := by
  cases pc with
  | lookUp req ext =>
    cases h
    exact ⟨by split_ifs <;> rfl, fun hs => .inr ⟨hs, id⟩⟩
  | serialPrefix req =>
    dsimp only [runSection] at h
    split_ifs at h
    · cases h
      exact ⟨rfl, fun hs => .inr ⟨hs, id⟩⟩
    · obtain ⟨found, d₁, hpre, h⟩ := Outcome.andThen_ok h
      cases h
      rcases serialPrefix_ok hpre with ⟨rfl, -, rfl⟩ | ⟨job, wal, ops, rfl, -, -, -, rfl⟩
      · exact ⟨rfl, fun hs => .inr ⟨hs, id⟩⟩
      · refine ⟨?_, fun hs => .inr ⟨hs, id⟩⟩
        rw [Option.elim_some, counted_behindPrefix]
        rfl
  | commit job =>
    obtain ⟨hin, hpc, hs⟩ := commitTurn_ok h
    exact ⟨by rw [hin, hpc]; rfl, fun h => (hs h).imp_right fun h => ⟨h, id⟩⟩
  | capture p =>
    obtain ⟨captured, d₁, hcap, h⟩ := Outcome.andThen_ok h
    cases h
    -- a leader keeps the flag while it captures
    unfold syncCapture at hcap
    split at hcap
    · cases hcap
    · cases hcap
      cases p with
      | groupCommit job => exact ⟨rfl, fun _ => .inl trivial⟩
      | flush job => exact ⟨rfl, fun _ => .inl trivial⟩
      | checkpoint reply lsn => exact ⟨rfl, fun hs => .inr ⟨hs, id⟩⟩
      | sync => exact ⟨rfl, fun hs => .inr ⟨hs, id⟩⟩
  | fsync p name target =>
    obtain ⟨_, d₁, hsync, h⟩ := Outcome.andThen_ok h
    cases h
    -- and while it syncs
    unfold syncFile at hsync
    split at hsync
    · cases hsync
    · cases hsync
      cases p with
      | groupCommit job => exact ⟨rfl, fun _ => .inl trivial⟩
      | flush job => exact ⟨rfl, fun _ => .inl trivial⟩
      | checkpoint reply lsn => exact ⟨rfl, fun hs => .inr ⟨hs, id⟩⟩
      | sync => exact ⟨rfl, fun hs => .inr ⟨hs, id⟩⟩
  | synced p target =>
    cases p with
    | groupCommit job =>
      obtain ⟨hin, hpc, hs⟩ := commitTurn_ok h
      refine ⟨by rw [hin, hpc]; rfl, fun h => (hs h).imp_right fun h => ?_⟩
      cases h
    | flush job =>
      cases h
      exact ⟨rfl, nofun⟩
    | checkpoint reply lsn =>
      cases h
      exact ⟨rfl, fun hs => .inr ⟨hs, id⟩⟩
    | sync =>
      cases h
      exact ⟨rfl, fun hs => .inr ⟨hs, id⟩⟩
  | apply job =>
    obtain ⟨call, d₁, happly, h⟩ := Outcome.andThen_ok h
    cases h
    obtain ⟨db, hdb⟩ := applyStart_state (δ := δ) (d := d) (m := job.mutation)
    rw [happly] at hdb
    obtain rfl : d' = d.withDb db := hdb
    refine ⟨?_, fun hs => .inr ⟨hs, id⟩⟩
    cases call with
    | none =>
      rw [Option.elim_none, counted_behindApply]
      rfl
    | some call => rfl
  | applying job call =>
    obtain ⟨call', d₁, happly, h⟩ := Outcome.andThen_ok h
    cases h
    obtain ⟨db, hdb⟩ : ∃ db, (d.applyNext K job.mutation.ext call).state = d.withDb db :=
      applyNext_state
    rw [happly] at hdb
    obtain rfl : d' = d.withDb db := hdb
    refine ⟨?_, fun hs => .inr ⟨hs, id⟩⟩
    cases call' with
    | none =>
      rw [Option.elim_none, counted_behindApply]
      rfl
    | some call => rfl
  | maybeFlush job =>
    dsimp only [runSection] at h
    split_ifs at h
    · cases h
      exact ⟨rfl, fun hs => .inr ⟨hs, id⟩⟩
    · cases h
      exact ⟨rfl, fun _ => .inl trivial⟩
  | finish job =>
    cases h
    -- the call has been in the count, so that it can be taken out
    have hpos := hpos rfl
    refine ⟨?_, fun hs => .inr ⟨hs, id⟩⟩
    have hnone : (if job.doCkpt then .checkpoint job.mutation.reply
        else .returned job.mutation.reply : Pc δ).Counted = false := by split_ifs <;> rfl
    rw [hnone]
    exact Nat.sub_add_cancel hpos
  | checkpoint reply =>
    cases h
    exact ⟨by split_ifs <;> rfl, fun hs => .inr ⟨hs, id⟩⟩
  | drain reply =>
    cases h
    exact ⟨by split_ifs <;> rfl, fun hs => .inr ⟨hs, id⟩⟩
  | save reply =>
    obtain ⟨lsn, d₁, hsave, h⟩ := Outcome.andThen_ok h
    cases h
    unfold saveSnapshot at hsave
    split at hsave
    · cases hsave
      exact ⟨rfl, fun hs => .inr ⟨hs, id⟩⟩
    · cases hsave
  | logCheckpoint reply lsn =>
    obtain ⟨_, d₁, hlog, h⟩ := Outcome.andThen_ok h
    cases h
    obtain ⟨wal, -, rfl⟩ := append_ok hlog
    exact ⟨rfl, fun hs => .inr ⟨hs, id⟩⟩
  | truncate reply lsn =>
    obtain ⟨_, d₁, htrunc, h⟩ := Outcome.andThen_ok h
    cases h
    obtain ⟨wal, -, rfl⟩ := Outcome.mapState_ok htrunc
    exact ⟨rfl, fun hs => .inr ⟨hs, id⟩⟩
  | creditCheckpoint reply lsn =>
    cases h
    exact ⟨rfl, fun hs => .inr ⟨hs, id⟩⟩
  | returned reply =>
    cases h
    exact ⟨rfl, fun hs => .inr ⟨hs, id⟩⟩
  | threw e =>
    cases h
    exact ⟨rfl, fun hs => .inr ⟨hs, id⟩⟩

/-- A section that throws leaves count and flag as they are. -/
theorem runSection_error (h : d.runSection K w pc env = .error e d') :
    d'.inFlight = d.inFlight ∧ d'.syncing = d.syncing := by
  cases pc with
  | serialPrefix req =>
    dsimp only [runSection] at h
    split_ifs at h
    rcases Outcome.andThen_error h with hpre | ⟨_, _, -, h⟩
    · obtain ⟨m, wal, -, -, rfl⟩ := serialPrefix_error hpre
      exact ⟨rfl, rfl⟩
    · cases h
  | commit job =>
    dsimp only [runSection, commitTurn] at h
    split_ifs at h
  | capture p =>
    rcases Outcome.andThen_error h with hcap | ⟨_, _, -, h⟩
    · unfold syncCapture at hcap
      split at hcap <;> cases hcap
      exact ⟨rfl, rfl⟩
    · cases h
  | fsync p name target =>
    rcases Outcome.andThen_error h with hsync | ⟨_, _, -, h⟩
    · unfold syncFile at hsync
      split at hsync <;> cases hsync
      exact ⟨rfl, rfl⟩
    · cases h
  | synced p target =>
    cases p with
    | groupCommit job =>
      dsimp only [runSection, commitTurn] at h
      split_ifs at h
    | _ => cases h
  | apply job =>
    rcases Outcome.andThen_error h with happly | ⟨_, _, -, h⟩
    · obtain ⟨db, hdb⟩ := applyStart_state (δ := δ) (d := d) (m := job.mutation)
      rw [happly] at hdb
      obtain rfl : d' = d.withDb db := hdb
      exact ⟨rfl, rfl⟩
    · cases h
  | applying job call =>
    rcases Outcome.andThen_error h with happly | ⟨_, _, -, h⟩
    · obtain ⟨db, hdb⟩ : ∃ db, (d.applyNext K job.mutation.ext call).state = d.withDb db :=
        applyNext_state
      rw [happly] at hdb
      obtain rfl : d' = d.withDb db := hdb
      exact ⟨rfl, rfl⟩
    · cases h
  | maybeFlush job =>
    dsimp only [runSection] at h
    split_ifs at h
  | save reply =>
    rcases Outcome.andThen_error h with hsave | ⟨_, _, -, h⟩
    · unfold saveSnapshot at hsave
      split at hsave <;> cases hsave
      constructor <;> split <;> rfl
    · cases h
  | logCheckpoint reply lsn =>
    rcases Outcome.andThen_error h with hlog | ⟨_, _, -, h⟩
    · rcases append_error hlog with rfl | ⟨wal, -, rfl⟩ <;> exact ⟨rfl, rfl⟩
    · cases h
  | truncate reply lsn =>
    rcases Outcome.andThen_error h with htrunc | ⟨_, _, -, h⟩
    · obtain ⟨wal, -, rfl⟩ := Outcome.mapState_error htrunc
      exact ⟨rfl, rfl⟩
    · cases h
  | _ => cases h

end DurableVDB

namespace System

variable {ι δ : Type} [ColumnIndex ι] [Distance δ] (K : Kernels δ) (s : System ι δ)

/-- The calls that have logged their record and not finished. -/
def inFlight : ℕ := s.calls.countP Pc.Counted

/-- The accounting says what the calls are about. -/
structure Truthful : Prop where
  inFlight : s.durable.inFlight = s.inFlight
  syncing : s.durable.syncing = true → ∃ pc ∈ s.calls, pc.Syncs
  idle : (∀ pc ∈ s.calls, ¬ pc.InProgress) → s.durable.inFlight = 0 ∧ s.durable.syncing = false

/-- What makes a call at `pc` throw behind its prefix. -/
def Fails (env : Env) : Pc δ → Prop
  | .capture (.groupCommit _) => s.durable.wal.activeFd = none
  | .capture (.flush _) => s.durable.wal.activeFd = none
  | .fsync (.groupCommit _) _ _ => env.fsync ≠ none
  | .fsync (.flush _) _ _ => env.fsync ≠ none
  | .apply job => ¬ (s.durable.applyStart (δ := δ) job.mutation).Returns
  | .applying job call => ¬ (s.durable.applyNext K job.mutation.ext call).Returns
  | _ => False

/-- An action in which a call throws behind its prefix. -/
def Strands : Action → Prop
  | .run i env => ∃ pc ∈ s.calls[i]?, s.Fails K env pc
  | _ => False

instance (env : Env) : DecidablePred (s.Fails K env)
  | .capture (.groupCommit _) => inferInstanceAs (Decidable (s.durable.wal.activeFd = none))
  | .capture (.flush _) => inferInstanceAs (Decidable (s.durable.wal.activeFd = none))
  | .fsync (.groupCommit _) _ _ => inferInstanceAs (Decidable (env.fsync ≠ none))
  | .fsync (.flush _) _ _ => inferInstanceAs (Decidable (env.fsync ≠ none))
  | .apply job =>
    inferInstanceAs (Decidable (¬ (s.durable.applyStart (δ := δ) job.mutation).Returns))
  | .applying job call =>
    inferInstanceAs (Decidable (¬ (s.durable.applyNext K job.mutation.ext call).Returns))
  | .capture (.checkpoint _ _) | .capture .sync | .fsync (.checkpoint _ _) _ _ | .fsync .sync _ _
  | .lookUp _ _ | .serialPrefix _ | .commit _ | .synced _ _ | .maybeFlush _ | .finish _
  | .checkpoint _ | .drain _ | .save _ | .logCheckpoint _ _ | .truncate _ _
  | .creditCheckpoint _ _ | .returned _ | .threw _ => .isFalse id

instance : DecidablePred (s.Strands K)
  | .run i env => inferInstanceAs (Decidable (∃ pc ∈ s.calls[i]?, s.Fails K env pc))
  | .invoke _ => .isFalse id
  | .checkpoint => .isFalse id
  | .sync => .isFalse id

/-- How many calls throw behind their prefix in a run. -/
def stranded (s : System ι δ) : List Action → ℕ
  | [] => 0
  | a :: as => (if s.Strands K a then 1 else 0) + stranded (s.act K a) as

variable {K s} {s' : System ι δ} {a : Action} {pc : Pc δ} {env : Env} {i : ℕ}

theorem returns_andThen_ok {σ α β : Type} {o : Outcome σ α} {f : α → σ → β} :
    (o.andThen fun a t => .ok (f a t) t).Returns ↔ o.Returns := by
  cases o <;> exact Iff.rfl

omit [ColumnIndex ι] [Distance δ] in
theorem returns_commitTurn (d : DurableVDB ι) (job : Job) :
    (d.commitTurn (δ := δ) job).Returns := by
  unfold DurableVDB.commitTurn
  split_ifs <;> trivial

omit [ColumnIndex ι] in
theorem returns_syncCapture (d : DurableVDB ι) : d.syncCapture.Returns ↔ d.wal.activeFd ≠ none := by
  unfold DurableVDB.syncCapture Wal.syncCapture
  cases d.wal.activeFd with
  | none => exact ⟨False.elim, fun h => h rfl⟩
  | some name => exact ⟨fun _ => nofun, fun _ => trivial⟩

omit [ColumnIndex ι] in
theorem returns_syncFile (d : DurableVDB ι) (name : Bytes) (env : Env) :
    (d.syncFile name env).Returns ↔ env.fsync = none := by
  unfold DurableVDB.syncFile
  cases env.fsync with
  | none => exact ⟨fun _ => rfl, fun _ => trivial⟩
  | some errno => exact ⟨False.elim, nofun⟩

/-- A call in flight throws just where it fails. -/
theorem returns_iff (hpc : pc.Counted = true) :
    (s.durable.runSection K s.writing pc env).Returns ↔ ¬ s.Fails K env pc := by
  have htriv : ∀ {p : Prop}, p → (p ↔ ¬ False) := fun h => ⟨fun _ => id, fun _ => h⟩
  cases pc with
  | commit job => exact htriv (returns_commitTurn s.durable job)
  | capture p =>
    refine returns_andThen_ok.trans ((returns_syncCapture _).trans ?_)
    cases p with
    | groupCommit job => exact Iff.rfl
    | flush job => exact Iff.rfl
    | checkpoint reply lsn => cases hpc
    | sync => cases hpc
  | fsync p name target =>
    refine returns_andThen_ok.trans ((returns_syncFile _ _ _).trans ?_)
    cases p with
    | groupCommit job => exact not_not.symm
    | flush job => exact not_not.symm
    | checkpoint reply lsn => cases hpc
    | sync => cases hpc
  | synced p target =>
    cases p with
    | groupCommit job => exact htriv (returns_commitTurn _ job)
    | flush job => exact htriv trivial
    | checkpoint reply lsn => cases hpc
    | sync => cases hpc
  | apply job => exact returns_andThen_ok.trans not_not.symm
  | applying job call => exact returns_andThen_ok.trans not_not.symm
  | maybeFlush job =>
    refine htriv ?_
    dsimp only [DurableVDB.runSection]
    split_ifs <;> trivial
  | finish job => exact htriv trivial
  | _ => cases hpc

theorem fails_counted (h : s.Fails K env pc) : pc.Counted = true := by
  unfold Fails at h
  split at h <;> first | rfl | exact h.elim

/-! ### Steps and runs -/

/-- **One action** keeps the count in step with the calls, but for a call that it strands. -/
theorem act_inFlight (h : s.inFlight ≤ s.durable.inFlight) (a : Action) :
    (s.act K a).durable.inFlight + s.inFlight =
      s.durable.inFlight + (s.act K a).inFlight + if s.Strands K a then 1 else 0 := by
  have hstart : ∀ pc : Pc δ, pc.Counted = false →
      (s.calls ++ [pc]).countP Pc.Counted = s.calls.countP Pc.Counted := by
    intro pc hpc
    rw [List.countP_append, List.countP_singleton, if_neg (by rw [hpc]; exact Bool.false_ne_true),
      Nat.add_zero]
  cases a with
  | invoke req =>
    have hreq : (req.start : Pc δ).Counted = false := by cases req <;> rfl
    exact congrArg (s.durable.inFlight + ·) (hstart _ hreq).symm
  | checkpoint => exact congrArg (s.durable.inFlight + ·) (hstart (.checkpoint .done) rfl).symm
  | sync => exact congrArg (s.durable.inFlight + ·) (hstart (.capture .sync) rfl).symm
  | run i env =>
    cases hi : s.calls[i]? with
    | none =>
      have hnot : ¬ s.Strands K (.run i env) := by
        rintro ⟨pc, hpc, -⟩
        rw [hi] at hpc
        cases hpc
      have hact : s.act K (.run i env) = s := by
        dsimp only [act]
        rw [hi]
      rw [hact, if_neg hnot]
      rfl
    | some pc =>
      have hstrands : s.Strands K (.run i env) ↔ s.Fails K env pc := by
        constructor
        · rintro ⟨pc', hpc', hf⟩
          rw [hi] at hpc'
          cases hpc'
          exact hf
        · exact fun hf => ⟨pc, hi, hf⟩
      have hpos : pc.Counted = true → 0 < s.durable.inFlight := fun hpc =>
        (List.countP_pos_iff.2 ⟨pc, List.mem_of_getElem? hi, hpc⟩).trans_le h
      have hact : s.act K (.run i env) = s.runCall K i env pc := by
        dsimp only [act]
        rw [hi]
      rw [hact]
      unfold runCall
      -- a call that returns has taken itself out; one that throws is stranded if it was counted
      cases hrun : s.durable.runSection K s.writing pc env with
      | ok pc' d' =>
        have hnot : ¬ s.Fails K env pc := fun hf => by
          have hret := (returns_iff (fails_counted hf)).1 (by rw [hrun]; trivial)
          exact hret hf
        have hset := countP_set_toNat Pc.Counted pc' hi
        have hin := (DurableVDB.runSection_ok hrun hpos).1
        rw [if_neg (hstrands.not.2 hnot)]
        dsimp only [inFlight] at hset hin ⊢
        omega
      | error e d' =>
        have hset := countP_set_toNat Pc.Counted (.threw e) hi
        have hin := (DurableVDB.runSection_error hrun).1
        have hthrew : (Pc.threw e : Pc δ).Counted = false := rfl
        rw [hthrew] at hset
        dsimp only [inFlight] at hset ⊢
        rw [hin]
        by_cases hpc : pc.Counted = true
        · have hf : s.Fails K env pc := by
            by_contra hf
            have hret := (returns_iff hpc).2 hf
            rw [hrun] at hret
            exact hret
          rw [if_pos (hstrands.2 hf)]
          rw [hpc] at hset
          have htrue : true.toNat = 1 := rfl
          have hfalse : false.toNat = 0 := rfl
          omega
        · rw [if_neg (hstrands.not.2 fun hf => hpc (fails_counted hf))]
          rw [Bool.not_eq_true] at hpc
          rw [hpc] at hset
          omega

/-- The count of a run is that of the calls in flight and of those stranded. -/
theorem inFlight_run (as : List Action) : ∀ {s : System ι δ} {n : ℕ},
    s.durable.inFlight = s.inFlight + n →
    (as.foldl (act K) s).durable.inFlight = (as.foldl (act K) s).inFlight +
    (n + s.stranded K as) := by
  induction as with
  | nil => exact fun h => h
  | cons a as ih =>
    intro s n h
    have hstep := act_inFlight (K := K) (h ▸ Nat.le_add_right ..) a
    rw [List.foldl_cons, ih (n := n + if s.Strands K a then 1 else 0) (by omega), stranded]
    omega

theorem stranded_eq_zero (as : List Action) : ∀ {s : System ι δ},
    s.stranded K as = 0 ↔ Run.Along (act K) (fun s a => ¬ s.Strands K a) s as := by
  induction as with
  | nil => exact ⟨fun _ => trivial, fun _ => rfl⟩
  | cons a as ih =>
    intro s
    rw [stranded, Nat.add_eq_zero_iff, ih, Run.Along]
    refine and_congr_left fun _ => ?_
    split_ifs with h
    · exact ⟨fun hone => absurd hone (by decide), fun hn => absurd h hn⟩
    · exact ⟨fun _ => h, fun _ => rfl⟩

/-- While no call is stranded the flag is set only for a call in `wal_.sync()`. -/
theorem act_syncing (h : s.durable.inFlight = s.inFlight)
    (hs : s.durable.syncing = true → ∃ pc ∈ s.calls, pc.Syncs) (hnot : ¬ s.Strands K a) :
    (s.act K a).durable.syncing = true → ∃ pc ∈ (s.act K a).calls, pc.Syncs := by
  have happend : ∀ pc : Pc δ, s.durable.syncing = true → ∃ pc' ∈ s.calls ++ [pc], pc'.Syncs := by
    intro pc hsync
    obtain ⟨pc', hmem, hpc'⟩ := hs hsync
    exact ⟨pc', List.mem_append_left _ hmem, hpc'⟩
  cases a with
  | invoke req => exact happend _
  | checkpoint => exact happend _
  | sync => exact happend _
  | run i env =>
    cases hi : s.calls[i]? with
    | none =>
      have hact : s.act K (.run i env) = s := by
        dsimp only [act]
        rw [hi]
      rw [hact]
      exact hs
    | some pc =>
      have hact : s.act K (.run i env) = s.runCall K i env pc := by
        dsimp only [act]
        rw [hi]
      have hlt := (List.getElem?_eq_some_iff.1 hi).1
      -- a call in `wal_.sync()` other than the one that runs is still there
      have hother : ∀ pc' : Pc δ, s.durable.syncing = true → ¬ pc.Syncs →
          ∃ q ∈ s.calls.set i pc', q.Syncs := by
        intro pc' hsync hpc
        obtain ⟨q, hq, hqs⟩ := hs hsync
        obtain ⟨j, hj⟩ := List.getElem?_of_mem hq
        have hij : i ≠ j := by
          rintro rfl
          rw [hi] at hj
          cases hj
          exact hpc hqs
        exact ⟨q, List.mem_of_getElem? ((List.getElem?_set_ne hij).trans hj), hqs⟩
      have hpos : pc.Counted = true → 0 < s.durable.inFlight := fun hpc =>
        h ▸ List.countP_pos_iff.2 ⟨pc, List.mem_of_getElem? hi, hpc⟩
      rw [hact]
      unfold runCall
      cases hrun : s.durable.runSection K s.writing pc env with
      | ok pc' d' =>
        intro hsync
        rcases (DurableVDB.runSection_ok hrun hpos).2 hsync with hpc' | ⟨hd, hpc⟩
        · exact ⟨pc', List.mem_set hlt pc', hpc'⟩
        · exact hother pc' hd hpc
      | error e d' =>
        intro hsync
        have hd : s.durable.syncing = true := (DurableVDB.runSection_error hrun).2 ▸ hsync
        refine hother _ hd fun hpc => hnot ⟨pc, hi, ?_⟩
        -- such a call is in flight, and throws only where it fails
        have hcounted : pc.Counted = true := by
          cases pc with
          | capture p => cases p <;> first | rfl | exact hpc.elim
          | fsync p _ _ => cases p <;> first | rfl | exact hpc.elim
          | synced p _ => cases p <;> first | rfl | exact hpc.elim
          | _ => exact hpc.elim
        by_contra hf
        have hret := (returns_iff hcounted).2 hf
        rw [hrun] at hret
        exact hret

omit [ColumnIndex ι] [Distance δ] in
/-- With the count and the flag right, nothing is left when no call is in progress. -/
theorem truthful_of (hin : s.durable.inFlight = s.inFlight)
    (hsync : s.durable.syncing = true → ∃ pc ∈ s.calls, pc.Syncs) : s.Truthful where
  inFlight := hin
  syncing := hsync
  idle hidle := by
    have hprogress : ∀ pc : Pc δ, pc.Counted = true ∨ pc.Syncs → pc.InProgress := by
      intro pc hpc
      cases pc with
      | returned reply => exact (hpc.resolve_left Bool.false_ne_true).elim
      | threw e => exact (hpc.resolve_left Bool.false_ne_true).elim
      | _ => exact trivial
    constructor
    · rw [hin]
      exact List.countP_eq_zero.2 fun pc hpc hc => hidle pc hpc (hprogress pc (.inl hc))
    · by_contra hs
      rw [Bool.not_eq_false] at hs
      obtain ⟨pc, hpc, hsyncs⟩ := hsync hs
      exact hidle pc hpc (hprogress pc (.inr hsyncs))

/-- **One action** that strands no call keeps the accounting right. -/
theorem Truthful.act (h : s.Truthful) (hnot : ¬ s.Strands K a) : (s.act K a).Truthful := by
  refine truthful_of ?_ (act_syncing h.inFlight h.syncing hnot)
  have hstep := act_inFlight (K := K) h.inFlight.ge a
  rw [if_neg hnot, h.inFlight] at hstep
  omega

/-- **The accounting of a run** is right if and only if no call has thrown behind its prefix. -/
theorem truthful_iff {config : VDBConfig} {opts : Options} {walDir : Bytes} {files : Dir}
    {snapshot : Option Bytes} {d : DurableVDB ι}
    (hopen : DurableVDB.open K config opts walDir files snapshot = .ok d) (as : List Action) :
    (as.foldl (act K) { durable := d }).Truthful ↔
      Run.Along (System.act K) (fun s a => ¬ s.Strands K a) { durable := d } as := by
  obtain ⟨hin, hsync⟩ := DurableVDB.open_idle hopen
  constructor
  · intro h
    have hrun := inFlight_run (K := K) (s := { durable := d }) (n := 0) as hin
    rw [← stranded_eq_zero]
    have := h.inFlight
    omega
  · refine Run.Along.invariant (fun s a hs ha => hs.act ha) (truthful_of hin fun hs => ?_)
    rw [hsync] at hs
    cases hs

/-! ### A rejected record -/

open Database.System (onePlace smallConfig small)

/-- An empty database, and no log yet. -/
def empty : DurableVDB PairIndex where
  config := smallConfig
  opts := {}
  db := small.db
  wal :=
    { files := [(segmentName 1, ⟨encodeHeader ⟨1, 0, (computeFingerprint [])⟩, 32⟩)]
      dir := ascii "wal", opener := ⟨1, 0, computeFingerprint []⟩
      segments := [{ number := 1 }], activeFd := some (segmentName 1), activeBytes := 32 }

theorem open_empty :
    DurableVDB.open onePlace smallConfig {} (ascii "wal") [] none = Except.ok (ε := Exn) empty := by
  rfl

/-- An insert, up to its return; on the way it leads a flush. -/
def flushed : List Action := .invoke (.insert [1] {}) :: List.replicate 10 (.run 0 {})

theorem truthful_flushed : (flushed.foldl (act onePlace) { durable := empty }).Truthful :=
  (truthful_iff open_empty flushed).2 (by decide +kernel)

/-- A record of one attribute, for a schema of none. -/
def rejected : List Action :=
  [.invoke (.insert [1] { attrs := [{}] }), .run 0 {}, .run 0 {}]

/-- The record is in the log, and its call is in flight for good. -/
theorem rejected_record :
    DurableVDB.open onePlace smallConfig {} (ascii "wal") [] none = Except.ok (ε := Exn) empty ∧
      ¬ (rejected.foldl (act onePlace) { durable := empty }).Truthful := by
  refine ⟨open_empty, fun h => ?_⟩
  exact absurd (h.idle (by decide +kernel)).1 (by decide +kernel)

end System

end Durable

end Vdb
