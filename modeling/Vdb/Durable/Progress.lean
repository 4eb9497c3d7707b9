import Vdb.Database.Linking
import Vdb.Durable.Rejected

/-!
# Progress

A call waits for another one at four places: for the leader of its group commit, for `write_mutex_`
in front of its prefix or of its checkpoint, and, as a checkpoint, for the calls in flight.

* `System.Goes` : a call runs a section, and does not wait.
* `Chronicle.progress_run` : after every run there are so many sections of this kind at most.  As
  long as no call has thrown behind its prefix, one of the calls in progress can go on; otherwise a
  checkpoint that waits for the calls in flight waits for good, and nothing is logged any more.
-/

namespace Vdb

namespace Durable

open Metadata Database

variable {ι δ : Type} [ColumnIndex ι] [Distance δ]

/-! ### Sections that go on -/

/-- The sections that a call may still run without waiting. -/
def Pc.work : Pc δ → ℕ
  | .lookUp _ _ => nodeWork + 21
  | .serialPrefix _ => nodeWork + 20
  | .commit _ => nodeWork + 19
  | .capture (.groupCommit _) => nodeWork + 18
  | .fsync (.groupCommit _) _ _ => nodeWork + 17
  | .synced (.groupCommit _) _ => nodeWork + 16
  | .apply _ => nodeWork + 15
  | .applying _ call => call.work + 14
  | .maybeFlush _ => 14
  | .capture (.flush _) => 13
  | .fsync (.flush _) _ _ => 12
  | .synced (.flush _) _ => 11
  | .finish _ => 10
  | .checkpoint _ => 9
  | .drain _ => 8
  | .save _ => 7
  | .logCheckpoint _ _ => 6
  | .capture (.checkpoint _ _) => 5
  | .fsync (.checkpoint _ _) _ _ => 4
  | .synced (.checkpoint _ _) _ => 3
  | .truncate _ _ => 2
  | .creditCheckpoint _ _ => 1
  | .capture .sync => 3
  | .fsync .sync _ _ => 2
  | .synced .sync _ => 1
  | .returned _ => 0
  | .threw _ => 0

namespace DurableVDB

variable {d d' : DurableVDB ι} {K : Kernels δ} {w : Bool} {env : Env} {pc pc' : Pc δ} {job : Job}
  {m : Mutation} {call call' : Call δ} {ext : ExternalId} {e : Exn} {r : Option WalRecord}

/-- The next section of a call at `pc` leaves it where it is; `w` says that another call holds
`write_mutex_`. -/
def Waits (d : DurableVDB ι) (w : Bool) : Pc δ → Prop
  | .commit job => d.durableLsn < job.lsn ∧ d.syncing = true
  | .serialPrefix _ => w = true
  | .checkpoint _ => w = true
  | .drain _ => d.inFlight ≠ 0
  | _ => False

/-- What is known of a call: the node it links is one of the index, and the `fsync` of a leader
covers its own record. -/
def PcOk (d : DurableVDB ι) : Pc δ → Prop
  | .applying _ call => ∀ p ∈ call.linking, d.db.index.LinkOk p.1 p.2
  | .fsync (.groupCommit job) _ target => job.lsn ≤ target
  | .synced (.groupCommit job) target => job.lsn ≤ target
  | _ => True

omit [ColumnIndex ι] [Distance δ] in
theorem PcOk.mono (h : d.PcOk pc) (he : d.db.index.Extends d'.db.index) : d'.PcOk pc := by
  cases pc with
  | applying job call => exact fun p hp => (h p hp).mono he
  | fsync p name target => cases p <;> exact h
  | synced p target => cases p <;> exact h
  | _ => trivial

omit [ColumnIndex ι] [Distance δ] in
theorem work_behindApply (d : DurableVDB ι) (job : Job) : (d.behindApply job : Pc δ).work ≤ 14 := by
  unfold behindApply
  split
  · exact (by decide : 10 ≤ 14)
  · exact le_rfl

omit [ColumnIndex ι] [Distance δ] in
theorem ok_behindApply (d d' : DurableVDB ι) (job : Job) : d'.PcOk (d.behindApply job : Pc δ) := by
  unfold behindApply
  split <;> trivial

omit [Distance δ] in
/-- An application starts with the first phase of its mutation. -/
theorem applyStart_work (h : d.applyStart m = .ok (some call) d') :
    call.work = nodeWork ∧ call.linking = none := by
  cases m with
  | insert ext vec rec =>
    dsimp only [applyStart] at h
    split at h
    · cases h
    · cases h
      exact ⟨rfl, rfl⟩
  | remove ext =>
    obtain ⟨_, _, -, h⟩ := Outcome.andThen_ok h
    cases h
  | update ext vec rec =>
    dsimp only [applyStart] at h
    split at h
    · cases h
    · cases h
      exact ⟨rfl, rfl⟩
  | setMetadata ext rec =>
    obtain ⟨_, _, -, h⟩ := Outcome.andThen_ok h
    cases h

omit [Distance δ] in
theorem extends_applyStart (hs : d.db.index.Sound) (m : Mutation) :
    d.db.index.Extends (d.applyStart (δ := δ) m).state.db.index := by
  cases m with
  | insert ext vec rec =>
    dsimp only [applyStart]
    split <;> exact .refl hs
  | remove ext =>
    rw [applyStart, Outcome.state_andThen_ok, Outcome.state_mapState]
    exact VDB.extends_remove hs
  | update ext vec rec =>
    dsimp only [applyStart]
    split <;> exact .refl hs
  | setMetadata ext rec =>
    rw [applyStart, Outcome.state_andThen_ok, Outcome.state_mapState]
    exact VDB.extends_setMetadata hs

theorem extends_applyNext (hs : d.db.index.Sound) (ext : ExternalId)
    (hok : ∀ p ∈ call.linking, d.db.index.LinkOk p.1 p.2) :
    d.db.index.Extends (d.applyNext K ext call).state.db.index := by
  have hlink : ∀ iid pc, call.linking = some (iid, pc) →
      d.db.index.Extends (d.db.index.linkSection K d.db.config.metric iid pc).1 :=
    fun iid pc hcall => ((hok _ hcall).linkSection hs K d.db.config.metric).1
  cases call with
  | inserting vec rec =>
    rw [applyNext, Outcome.state_andThen_ok, Outcome.state_mapState]
    exact VDB.extends_insertAllocate hs
  | updating vec rec =>
    rw [applyNext, Outcome.state_andThen_ok, Outcome.state_mapState]
    exact VDB.extends_updateAllocate hs rec
  | insertLinking vec rec iid pc =>
    cases pc with
    | done =>
      rw [applyNext, Outcome.state_andThen_ok, Outcome.state_mapState]
      exact VDB.extends_insertPublish hs
    | _ => exact hlink _ _ rfl
  | updateLinking vec rec old iid pc =>
    cases pc with
    | done =>
      rw [applyNext, Outcome.state_andThen_ok, Outcome.state_mapState]
      exact VDB.extends_updatePublish hs
    | _ => exact hlink _ _ rfl

/-- **A section of an application** has less to do, and its node can be linked. -/
theorem applyNext_work (hs : d.db.index.Sound)
    (hok : ∀ p ∈ call.linking, d.db.index.LinkOk p.1 p.2)
    (h : d.applyNext K ext call = .ok (some call') d') :
    call'.work < call.work ∧ ∀ p ∈ call'.linking, d'.db.index.LinkOk p.1 p.2 := by
  -- a link that is not over runs a section
  have hlink : ∀ (iid : InternalId) (pc : Hnsw.Pc δ), d.db.index.LinkOk iid pc → pc ≠ .done →
      Index.linkWork (d.db.index.linkSection K d.db.config.metric iid pc).2 + 1 <
          Index.linkWork pc + 1 ∧
        (d.db.index.linkSection K d.db.config.metric iid pc).1.LinkOk iid
          (d.db.index.linkSection K d.db.config.metric iid pc).2 := by
    intro iid pc hpc hne
    obtain ⟨-, hlinkOk, hle⟩ := hpc.linkSection hs K d.db.config.metric
    have hpos : Index.linkWork pc ≠ 0 := fun h0 => hne (Hnsw.Pc.work_eq_zero.1 h0)
    exact ⟨by omega, hlinkOk⟩
  cases call with
  | inserting vec rec =>
    obtain ⟨iid, d₁, hmap, h⟩ := Outcome.andThen_ok h
    obtain ⟨db, halloc, rfl⟩ := Outcome.mapState_ok hmap
    cases h
    refine ⟨Nat.lt_succ_self _, fun p hp => ?_⟩
    cases hp
    exact VDB.linkOk_insertAllocate halloc
  | updating vec rec =>
    obtain ⟨nodes, d₁, hmap, h⟩ := Outcome.andThen_ok h
    obtain ⟨db, halloc, rfl⟩ := Outcome.mapState_ok hmap
    cases nodes with
    | none => cases h
    | some nodes =>
      cases h
      refine ⟨Nat.lt_succ_self _, fun p hp => ?_⟩
      cases hp
      exact VDB.linkOk_updateAllocate halloc
  | insertLinking vec rec iid pc =>
    cases pc with
    | done =>
      obtain ⟨_, _, -, h⟩ := Outcome.andThen_ok h
      cases h
    | _ =>
      cases h
      obtain ⟨hlt, hlinkOk⟩ := hlink iid _ (hok _ rfl) nofun
      refine ⟨hlt, fun p hp => ?_⟩
      cases hp
      exact hlinkOk
  | updateLinking vec rec old iid pc =>
    cases pc with
    | done =>
      obtain ⟨_, _, -, h⟩ := Outcome.andThen_ok h
      cases h
    | _ =>
      cases h
      obtain ⟨hlt, hlinkOk⟩ := hlink iid _ (hok _ rfl) nofun
      refine ⟨hlt, fun p hp => ?_⟩
      cases hp
      exact hlinkOk

omit [ColumnIndex ι] [Distance δ] in
/-- A turn of `group_commit_` of a call that does not wait. -/
theorem commitTurn_work (h : d.commitTurn (δ := δ) job = .ok pc d')
    (hgoes : ¬ (d.durableLsn < job.lsn ∧ d.syncing = true)) : pc.work < nodeWork + 19 := by
  unfold commitTurn at h
  split_ifs at h with hle hsync
  · cases h
    exact Nat.add_lt_add_left (by decide) _
  · exact absurd ⟨Nat.not_le.1 hle, hsync⟩ hgoes
  · cases h
    exact Nat.add_lt_add_left (by decide) _

/-- **A section of a call that does not wait** leaves it less to do. -/
theorem section_work (hs : d.db.index.Sound) (hok : d.PcOk pc) (hpc : pc.InProgress)
    (hgoes : ¬ d.Waits w pc) (h : d.runSection K w pc env = .ok pc' d') : pc'.work < pc.work := by
  cases pc with
  | lookUp req ext =>
    cases h
    split_ifs
    · exact Nat.lt_succ_self _
    · exact Nat.succ_pos _
  | serialPrefix req =>
    dsimp only [runSection] at h
    rw [if_neg (show ¬ w = true from hgoes)] at h
    obtain ⟨found, d₁, -, h⟩ := Outcome.andThen_ok h
    cases h
    cases found with
    | none => exact Nat.succ_pos _
    | some job =>
      rw [Option.elim_some]
      unfold behindPrefix
      split <;> exact Nat.add_lt_add_left (by decide) _
  | commit job => exact commitTurn_work h hgoes
  | capture p =>
    obtain ⟨captured, d₁, -, h⟩ := Outcome.andThen_ok h
    cases h
    cases p <;> exact Nat.lt_succ_self _
  | fsync p name target =>
    obtain ⟨_, d₁, -, h⟩ := Outcome.andThen_ok h
    cases h
    cases p <;> exact Nat.lt_succ_self _
  | synced p target =>
    cases p with
    | groupCommit job =>
      -- the leader's own record is durable now
      have hle : job.lsn ≤ (d.endSync target).durableLsn := by
        have htarget : job.lsn ≤ target := hok
        dsimp only [endSync, credit]
        split_ifs <;> omega
      have h : (d.endSync target).commitTurn job = .ok pc' d' := h
      rw [commitTurn, if_pos hle] at h
      cases h
      exact Nat.lt_succ_self _
    | flush job =>
      cases h
      exact Nat.lt_succ_self _
    | checkpoint reply lsn =>
      cases h
      exact Nat.lt_succ_self _
    | sync =>
      cases h
      exact Nat.lt_succ_self _
  | apply job =>
    obtain ⟨call, d₁, happly, h⟩ := Outcome.andThen_ok h
    cases h
    cases call with
    | none =>
      rw [Option.elim_none]
      exact (work_behindApply d' job).trans_lt
        ((by decide : 14 < 15).trans_le (Nat.le_add_left _ _))
    | some call =>
      have hwork := (applyStart_work happly).1
      dsimp only [Option.elim_some, Pc.work]
      omega
  | applying job call =>
    obtain ⟨next, d₁, happly, h⟩ := Outcome.andThen_ok h
    cases h
    cases next with
    | none =>
      have hpos : 0 < call.work := by cases call <;> exact Nat.succ_pos _
      rw [Option.elim_none]
      exact (work_behindApply d' job).trans_lt (Nat.lt_add_of_pos_left hpos)
    | some next =>
      have hwork := (applyNext_work hs hok happly).1
      dsimp only [Option.elim_some, Pc.work]
      omega
  | maybeFlush job =>
    dsimp only [runSection] at h
    split_ifs at h
    · cases h
      exact (by decide : 10 < 14)
    · cases h
      exact Nat.lt_succ_self _
  | finish job =>
    cases h
    split_ifs
    · exact Nat.lt_succ_self _
    · exact Nat.succ_pos _
  | checkpoint reply =>
    cases h
    rw [if_neg (show ¬ w = true from hgoes)]
    exact Nat.lt_succ_self _
  | drain reply =>
    cases h
    rw [if_pos (not_not.1 hgoes)]
    exact Nat.lt_succ_self _
  | save reply =>
    obtain ⟨lsn, d₁, -, h⟩ := Outcome.andThen_ok h
    cases h
    exact Nat.lt_succ_self _
  | logCheckpoint reply lsn =>
    obtain ⟨_, d₁, -, h⟩ := Outcome.andThen_ok h
    cases h
    exact Nat.lt_succ_self _
  | truncate reply lsn =>
    obtain ⟨_, d₁, -, h⟩ := Outcome.andThen_ok h
    cases h
    exact Nat.lt_succ_self _
  | creditCheckpoint reply lsn =>
    cases h
    exact Nat.lt_succ_self _
  | returned reply => exact hpc.elim
  | threw e => exact hpc.elim

/-- A section that returns keeps the index, and what is known of its call. -/
theorem Moves.ok (hm : d.Moves K w env pc pc' d' r) (hs : d.db.index.Sound) (hok : d.PcOk pc)
    (hcapture : ∀ job, pc = .capture (.groupCommit job) → job.lsn ≤ d.wal.highestLsn) :
    d.db.index.Extends d'.db.index ∧ d'.PcOk pc' := by
  cases hm with
  | stays => exact ⟨.refl hs, hok⟩
  | logs req job wal ops hw hmut hlsn happ =>
    refine ⟨?_, ?_⟩
    · cases req <;> exact .refl hs
    · unfold behindPrefix
      split <;> trivial
  | captures p name hfd =>
    refine ⟨.refl hs, ?_⟩
    cases p with
    | groupCommit job => exact hcapture job rfl
    | _ => trivial
  | syncs p name target hsync =>
    refine ⟨.refl hs, ?_⟩
    cases p <;> exact hok
  | applies job call db happ =>
    have hext := extends_applyStart (δ := δ) hs job.mutation
    rw [happ] at hext
    refine ⟨hext, ?_⟩
    cases call with
    | none => exact ok_behindApply _ _ job
    | some call =>
      intro p hp
      rw [(applyStart_work happ).2] at hp
      cases hp
  | continues job call next db happ =>
    have hext := extends_applyNext (K := K) hs job.mutation.ext hok
    rw [happ] at hext
    refine ⟨hext, ?_⟩
    cases next with
    | none => exact ok_behindApply _ _ job
    | some next => exact (applyNext_work hs hok happ).2
  | finishes job =>
    refine ⟨.refl hs, ?_⟩
    split_ifs <;> trivial
  | _ => exact ⟨.refl hs, trivial⟩

omit [ColumnIndex ι] [Distance δ] in
theorem not_writes_behindApply (d : DurableVDB ι) (job : Job) :
    ¬ (d.behindApply job : Pc δ).Writes := by
  unfold behindApply
  split <;> exact id

/-- A section takes `write_mutex_` only if no call holds it. -/
theorem Moves.writes (hm : d.Moves K w env pc pc' d' r) (h : pc'.Writes) :
    pc.Writes ∨ w = false := by
  cases hm with
  | stays => exact .inl h
  | enters reply hw => exact .inr hw
  | logs req job wal ops hw hmut hlsn happ => exact .inr hw
  | captures p name hfd => cases p <;> first | exact .inl trivial | exact h.elim
  | syncs p name target hsync => cases p <;> first | exact .inl trivial | exact h.elim
  | applies job call db happ =>
    cases call with
    | none => exact absurd h (not_writes_behindApply _ job)
    | some call => exact h.elim
  | continues job call next db happ =>
    cases next with
    | none => exact absurd h (not_writes_behindApply _ job)
    | some next => exact h.elim
  | finishes job =>
    split_ifs at h
    · exact h.elim
    · exact h.elim
  | checkpointSynced | drained | saves | logsCheckpoint | truncates => exact .inl trivial
  | _ => exact h.elim

theorem Throws.extends (ht : d.Throws K w env pc e d') (hs : d.db.index.Sound) (hok : d.PcOk pc) :
    d.db.index.Extends d'.db.index := by
  cases ht with
  | log req e m wal hw hmut hwal => cases req <;> exact .refl hs
  | apply job e db happ =>
    have hext := extends_applyStart (δ := δ) hs job.mutation
    rwa [happ] at hext
  | next job call e db happ =>
    have hext := extends_applyNext (K := K) hs job.mutation.ext hok
    rwa [happ] at hext
  | save reply e replaced => split_ifs <;> exact .refl hs
  | _ => exact .refl hs

end DurableVDB

/-! ### Runs -/

namespace System

variable {K : Kernels δ} {s : System ι δ} {a : Action} {i j : ℕ} {pc pc' : Pc δ} {reply : Reply}

/-- The sections that the calls may still run without waiting. -/
def work (s : System ι δ) : ℕ := (s.calls.map Pc.work).sum

/-- The action runs a section of a call that is in progress and does not wait. -/
def Goes (s : System ι δ) : Action → Prop
  | .run i _ => ∃ pc ∈ s.calls[i]?, pc.InProgress ∧ ¬ s.durable.Waits s.writing pc
  | _ => False

/-- What holds between the sections, whichever of them throw. -/
structure Alive (s : System ι δ) : Prop where
  sound : s.durable.db.index.Sound
  calls : ∀ pc ∈ s.calls, s.durable.PcOk pc
  traced : ∃ t : Traced ι δ, t.system = s ∧ t.Inv
  /-- One call holds `write_mutex_`. -/
  mutex : s.calls.countP (fun pc => pc.Writes) ≤ 1
  accounts : (s.Truthful ∧ ∀ reply, .save reply ∈ s.calls → s.durable.inFlight = 0) ∨ s.Stuck

omit [ColumnIndex ι] [Distance δ] in
theorem sum_set {pc' : Pc δ} (hi : s.calls[i]? = some pc) (hlt : pc'.work < pc.work) :
    ((s.calls.set i pc').map Pc.work).sum < s.work := by
  unfold work
  generalize s.calls = l at hi
  induction l generalizing i with
  | nil => cases hi
  | cons q l ih =>
    cases i with
    | zero =>
      cases hi
      simpa using hlt
    | succ i => simpa using ih hi

omit [ColumnIndex ι] [Distance δ] in
theorem countP_writes (hlen : s.calls.countP (fun pc => pc.Writes) ≤ 1) {pc' : Pc δ}
    (hi : s.calls[i]? = some pc) (hw : pc'.Writes → pc.Writes ∨ s.writing = false) :
    (s.calls.set i pc').countP (fun pc => pc.Writes) ≤ 1 := by
  have hset := countP_set_toNat (fun pc : Pc δ => decide pc.Writes) pc' hi
  have hle : (decide pc'.Writes).toNat ≤ 1 := Bool.toNat_le _
  by_cases hpc' : pc'.Writes
  · rcases hw hpc' with hpc | hnone
    · rw [decide_eq_true hpc', decide_eq_true hpc] at hset
      omega
    · have hzero : s.calls.countP (fun pc => decide pc.Writes) = 0 :=
        List.countP_eq_zero.2 fun q hq hqw =>
          Bool.false_ne_true (hnone.symm.trans (List.any_eq_true.2 ⟨q, hq, hqw⟩))
      omega
  · rw [decide_eq_false hpc'] at hset
    have hfalse : false.toNat = 0 := rfl
    omega

/-- **One action** keeps this. -/
theorem Alive.act (h : s.Alive) (a : Action) : (s.act K a).Alive := by
  have htraced : ∃ t : Traced ι δ, t.system = s.act K a ∧ t.Inv := by
    obtain ⟨t, rfl, ht⟩ := h.traced
    exact ⟨t.act K a, rfl, ht.act a⟩
  have hquiet : (∀ reply, .save reply ∈ s.calls → s.durable.inFlight = 0) →
      ∀ reply, .save reply ∈ (s.act K a).calls → (s.act K a).durable.inFlight = 0 := by
    intro hq
    have hacts := s.act_acts K a
    generalize s.act K a = s', s.logged a = r at hacts ⊢
    cases hacts with
    | starts pc hpc =>
      intro reply hmem
      rcases List.mem_append.1 hmem with hmem | hmem
      · exact hq reply hmem
      · rw [List.mem_singleton] at hmem
        rcases hpc with ⟨req, rfl⟩ | rfl | rfl
        · cases req <;> cases hmem
        · cases hmem
        · cases hmem
    | idles => exact hq
    | moves i env pc pc' d' r hrun hi hm => exact hm.steps.quiet hi hq
    | throws i env pc e d' hrun hi ht => exact ht.steps.quiet hi hq
  have haccounts : ((s.act K a).Truthful ∧
      ∀ reply, .save reply ∈ (s.act K a).calls → (s.act K a).durable.inFlight = 0) ∨
        (s.act K a).Stuck := by
    rcases h.accounts with ⟨htruthful, hq⟩ | hstuck
    · by_cases hstrands : s.Strands K a
      · exact .inr (htruthful.stuck hq hstrands)
      · exact .inl ⟨htruthful.act hstrands, hquiet hq⟩
    · exact .inr hstuck.act
  obtain ⟨t, hsystem, ht⟩ := h.traced
  have hacts := s.act_acts K a
  generalize s.act K a = s', s.logged a = r at hacts htraced haccounts
  cases hacts with
  | starts pc hpc =>
    have hstart : ¬ pc.Writes ∧ s.durable.PcOk pc := by
      rcases hpc with ⟨req, rfl⟩ | rfl | rfl
      · cases req <;> exact ⟨id, trivial⟩
      · exact ⟨id, trivial⟩
      · exact ⟨id, trivial⟩
    refine ⟨h.sound, fun q hq => ?_, htraced, ?_, haccounts⟩
    · rcases List.mem_append.1 hq with hq | hq
      · exact h.calls q hq
      · rw [List.mem_singleton.1 hq]
        exact hstart.2
    · rw [List.countP_append, List.countP_singleton, if_neg (by simpa using hstart.1)]
      exact h.mutex
  | idles => exact ⟨h.sound, h.calls, htraced, h.mutex, haccounts⟩
  | moves i env pc pc' d' r hrun hi hm =>
    have hmem := List.mem_of_getElem? hi
    obtain ⟨hext, hok⟩ := hm.ok h.sound (h.calls pc hmem) fun job hpc => by
      -- the record of a leader is in the log, up to the highest lsn
      subst hpc
      obtain ⟨p, hp, hrecord⟩ := ht.calls _ (hsystem ▸ hmem)
      have hle := ht.noted p hp
      rw [hrecord, Mutation.lsn_toRecord] at hle
      exact hsystem ▸ hle
    refine ⟨hext.sound, fun q hq => ?_, htraced, countP_writes h.mutex hi hm.writes, haccounts⟩
    rcases List.mem_or_eq_of_mem_set hq with hq | rfl
    · exact (h.calls q hq).mono hext
    · exact hok
  | throws i env pc e d' hrun hi hthrows =>
    have hext := hthrows.extends h.sound (h.calls pc (List.mem_of_getElem? hi))
    refine ⟨hext.sound, fun q hq => ?_, htraced, countP_writes h.mutex hi False.elim, haccounts⟩
    rcases List.mem_or_eq_of_mem_set hq with hq | rfl
    · exact (h.calls q hq).mono hext
    · trivial

/-- **A section of a call that does not wait** brings its end nearer. -/
theorem Alive.goes (h : s.Alive) (hg : s.Goes a) : (s.act K a).work < s.work := by
  cases a with
  | run i env =>
    obtain ⟨pc, hi, hpc, hgoes⟩ := hg
    have hi : s.calls[i]? = some pc := hi
    have hmem := List.mem_of_getElem? hi
    have hact : s.act K (.run i env) = s.runCall K i env pc := by
      dsimp only [System.act]
      rw [hi]
    rw [hact]
    unfold runCall
    cases hrun : s.durable.runSection K s.writing pc env with
    | ok pc' d' =>
      exact sum_set hi (DurableVDB.section_work h.sound (h.calls pc hmem) hpc hgoes hrun)
    | error e d' =>
      refine sum_set hi ?_
      cases pc with
      | capture p => cases p <;> exact Nat.succ_pos _
      | fsync p name target => cases p <;> exact Nat.succ_pos _
      | synced p target => cases p <;> exact Nat.succ_pos _
      | returned reply => exact hpc.elim
      | threw e => exact hpc.elim
      | _ => exact Nat.succ_pos _
  | _ => exact hg.elim

omit [ColumnIndex ι] [Distance δ] in
/-- **No deadlock.**  While the accounting is right one of the calls in progress can go on. -/
theorem Truthful.free (h : s.Truthful) (hpc : ∃ pc ∈ s.calls, pc.InProgress) :
    ∃ i, ∀ env, s.Goes (.run i env) := by
  -- a call that does not wait
  have hgo : ∀ pc ∈ s.calls, pc.InProgress → ¬ s.durable.Waits s.writing pc →
      ∃ i, ∀ env, s.Goes (.run i env) := by
    intro pc hmem hin hgoes
    obtain ⟨i, hi⟩ := List.getElem?_of_mem hmem
    exact ⟨i, fun env => ⟨pc, hi, hin, hgoes⟩⟩
  -- the leader of a group commit
  have hleader : s.durable.syncing = true → ∃ i, ∀ env, s.Goes (.run i env) := by
    intro hsync
    obtain ⟨pc, hmem, hpc⟩ := h.syncing hsync
    refine hgo pc hmem ?_ ?_
    · cases pc <;> first | exact hpc.elim | trivial
    · cases pc <;> first | exact hpc.elim | exact id
  -- a call in flight, which at most waits for the leader
  have hflight : s.durable.inFlight ≠ 0 → ∃ i, ∀ env, s.Goes (.run i env) := by
    intro hin
    rw [h.inFlight] at hin
    obtain ⟨pc, hmem, hcounted⟩ := List.countP_pos_iff.1 (Nat.pos_of_ne_zero hin)
    by_cases hwaits : s.durable.Waits s.writing pc
    · cases pc with
      | commit job => exact hleader hwaits.2
      | serialPrefix req => cases hcounted
      | checkpoint reply => cases hcounted
      | drain reply => cases hcounted
      | _ => exact hwaits.elim
    · refine hgo pc hmem ?_ hwaits
      cases pc with
      | returned reply => cases hcounted
      | threw e => cases hcounted
      | _ => trivial
  -- the call that holds `write_mutex_`, which at most waits for those in flight
  have hwriter : s.writing = true → ∃ i, ∀ env, s.Goes (.run i env) := by
    intro hw
    obtain ⟨pc, hmem, hpc⟩ := List.any_eq_true.1 hw
    have hpc := of_decide_eq_true hpc
    by_cases hwaits : s.durable.Waits s.writing pc
    · cases pc with
      | drain reply => exact hflight hwaits
      | commit job => exact hpc.elim
      | serialPrefix req => exact hpc.elim
      | checkpoint reply => exact hpc.elim
      | _ => exact hwaits.elim
    · refine hgo pc hmem ?_ hwaits
      cases pc with
      | returned reply => exact hpc.elim
      | threw e => exact hpc.elim
      | _ => trivial
  obtain ⟨pc, hmem, hin⟩ := hpc
  by_cases hwaits : s.durable.Waits s.writing pc
  · cases pc with
    | commit job => exact hleader hwaits.2
    | serialPrefix req => exact hwriter hwaits
    | checkpoint reply => exact hwriter hwaits
    | drain reply => exact hflight hwaits
    | _ => exact hwaits.elim
  · exact hgo pc hmem hin hwaits

omit [ColumnIndex ι] [Distance δ] in
/-- Two calls do not hold `write_mutex_`. -/
theorem alone (hmutex : s.calls.countP (fun pc => pc.Writes) ≤ 1) (hi : s.calls[i]? = some pc)
    (hpc : pc.Writes) (hj : s.calls[j]? = some pc') (hpc' : pc'.Writes) : j = i := by
  by_contra hne
  have hset := countP_set_toNat (fun pc : Pc δ => decide pc.Writes) (.threw .assertionFailed) hj
  have hpos : 0 < (s.calls.set j (.threw .assertionFailed)).countP (fun pc => decide pc.Writes) :=
    List.countP_pos_iff.2 ⟨pc, List.mem_of_getElem? ((List.getElem?_set_ne hne).trans hi),
      decide_eq_true hpc⟩
  rw [decide_eq_true hpc',
    decide_eq_false (show ¬ (Pc.threw .assertionFailed : Pc δ).Writes from id)] at hset
  have htrue : true.toNat = 1 := rfl
  have hfalse : false.toNat = 0 := rfl
  omega

/-- **A checkpoint that waits in vain** goes on waiting, and nothing is logged. -/
theorem Alive.wedged (h : s.Alive) (hstuck : s.Stuck) (hi : s.calls[i]? = some (.drain reply))
    (a : Action) : (s.act K a).calls[i]? = some (.drain reply) ∧ s.logged a = none := by
  have hlt := (List.getElem?_eq_some_iff.1 hi).1
  have hwriting : s.writing = true :=
    List.any_eq_true.2 ⟨_, List.mem_of_getElem? hi, rfl⟩
  have hin : s.durable.inFlight ≠ 0 := (Nat.zero_lt_of_lt hstuck.more).ne'
  have hacts := s.act_acts K a
  generalize s.act K a = s', s.logged a = r at hacts ⊢
  cases hacts with
  | starts pc hpc => exact ⟨(List.getElem?_append_left hlt).trans hi, rfl⟩
  | idles => exact ⟨hi, rfl⟩
  | moves j env pc pc' d' r hrun hj hm =>
    by_cases hij : j = i
    · subst hij
      rw [hi] at hj
      cases hj
      cases hm with
      | stays => exact ⟨List.getElem?_set_self hlt, rfl⟩
      | drained reply hzero => exact absurd hzero hin
    · refine ⟨(List.getElem?_set_ne hij).trans hi, ?_⟩
      cases hm with
      | logs req job wal ops hw hmut hlsn happ => exact absurd (hwriting.symm.trans hw) nofun
      | logsCheckpoint reply lsn wal happ => exact absurd (alone h.mutex hi trivial hj trivial) hij
      | _ => rfl
  | throws j env pc e d' hrun hj ht =>
    by_cases hij : j = i
    · subst hij
      rw [hi] at hj
      cases hj
      cases ht
    · exact ⟨(List.getElem?_set_ne hij).trans hi, rfl⟩

end System

namespace Chronicle

variable {K : Kernels δ} {config : VDBConfig} {walDir : Bytes} {c : Chronicle ι δ}

/-- Calls do not wait for each other for ever, unless one of them has thrown behind its prefix. -/
structure Progress (K : Kernels δ) (c : Chronicle ι δ) : Prop where
  /-- However the calls are scheduled, they run out of sections. -/
  bounded : ∀ as : List Action, Run.Along (System.act K) System.Goes c.system as →
    as.length ≤ c.system.work
  free : c.system.Truthful → (∃ pc ∈ c.system.calls, pc.InProgress) →
    ∃ i, ∀ env, c.system.Goes (.run i env)
  wedged : ¬ c.system.Truthful → ∀ (i : ℕ) (reply : Reply),
    c.system.calls[i]? = some (.drain reply) → ∀ as : List Action,
      (as.foldl (act K) c).system.calls[i]? = some (.drain reply) ∧
        (as.foldl (act K) c).log = c.log

theorem progress_of_alive (h : c.system.Alive) : c.Progress K where
  bounded _ hgo := hgo.length_le (I := System.Alive) (fun _ a hs _ => hs.act a)
    (fun _ _ hs hg => hs.goes hg) h
  free hs := hs.free
  wedged hnot i reply hi as := by
    have hstuck : c.system.Stuck := h.accounts.resolve_left fun hs => hnot hs.1
    have hstep : ∀ (c' : Chronicle ι δ) (a : Action), (c'.system.Alive ∧ c'.system.Stuck ∧
        c'.system.calls[i]? = some (.drain reply) ∧ c'.log = c.log) →
          (c'.act K a).system.Alive ∧ (c'.act K a).system.Stuck ∧
            (c'.act K a).system.calls[i]? = some (.drain reply) ∧ (c'.act K a).log = c.log := by
      rintro c' a ⟨halive, hstuck, hi, hlog⟩
      obtain ⟨hdrain, hnone⟩ := halive.wedged (K := K) hstuck hi a
      refine ⟨halive.act a, hstuck.act, hdrain, ?_⟩
      dsimp only [act]
      rw [hnone, Option.toList_none, List.append_nil, hlog]
    exact (Run.invariant hstep ⟨h, hstuck, hi, rfl⟩ as).2.2

omit [Distance δ] in
/-- With a process that has opened the files nothing is in progress. -/
theorem alive_of_backed {d : DurableVDB ι} {log : List WalRecord}
    (h : Backed config (⟨{ durable := d }, log⟩ : Chronicle ι δ)) :
    ({ durable := d } : System ι δ).Alive := by
  obtain ⟨s, es, hdb, hheld, -⟩ := h.ok.ledger.held
  obtain ⟨lsn, db, t, l, hsystem, ht, -⟩ := h.stored.disk
  have hsound : d.db.index.Sound := hdb ▸ hheld.holds.sound
  exact ⟨hsound, nofun, ⟨t, hsystem, ht⟩, Nat.zero_le 1, .inl ⟨h.ok.truthful, nofun⟩⟩

theorem alive_step (h : Lasting config c) (halive : c.system.Alive) (hdim : config.dim < 2 ^ 32)
    {e : Event} (he : c.Tame K config walDir e) : (c.step K config walDir e).system.Alive := by
  cases e with
  | act a => exact halive.act a
  | outage kept opts =>
    have hopens : Opens (c.reopened K config walDir kept opts) := he
    dsimp only [step]
    cases hopen : c.reopened K config walDir kept opts with
    | error e => exact halive
    | ok d =>
      rw [hopen] at hopens
      exact alive_of_backed (outage h.stored hdim hopen hopens).1

/-- **Progress.**  Whatever calls have run, with outages among them and whichever of them threw, all
calls in progress come to an end if those that can go on are let go on; but a call that has thrown
behind its prefix keeps a checkpoint waiting, and everything behind it. -/
theorem progress_run {opts : Options} {d : DurableVDB ι} (hdim : config.dim < 2 ^ 32)
    (hopen : DurableVDB.open K config opts walDir [] none = .ok d) (es : List Event)
    (h : Run.Along (step K config walDir) (Tame K config walDir) { system := { durable := d } } es)
    (as : List Action) :
    (as.foldl (act K) (es.foldl (step K config walDir) { system := { durable := d } })).Progress
      K := by
  have hstart := backed_start (δ := δ) hdim hopen
  have halive := (Run.Along.invariant (I := fun c => Lasting config c ∧ c.system.Alive)
    (fun _ _ hc he => ⟨lasting_step hc.1 hdim he, alive_step hc.1 hc.2 hdim he⟩)
    ⟨⟨hstart.stored, .inl hstart.ok⟩, alive_of_backed hstart⟩ h).2
  exact progress_of_alive (Run.invariant (I := fun c : Chronicle ι δ => c.system.Alive)
    (fun _ a hc => hc.act a) halive as)

open Database.System (onePlace smallConfig)

/-- Behind the rejected insert a checkpoint, and an insert that finds `write_mutex_` taken. -/
def behindPoisoned : List Action :=
  [.checkpoint, .run 2 {}, .invoke (.insert [3] {})]

theorem progress_poisoned : (behindPoisoned.foldl (act onePlace)
    (poisoned.foldl (step onePlace smallConfig (ascii "wal"))
      { system := { durable := Traced.waiting } })).Progress onePlace :=
  progress_run (by decide) Traced.open_waiting poisoned (by decide +kernel) behindPoisoned

end Chronicle

end Durable

end Vdb
