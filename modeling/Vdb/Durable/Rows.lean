import Vdb.Durable.Capacity
import Vdb.Durable.Rebuilt
import Vdb.Durable.Unopenable

/-!
# The rows of calls one at a time

A call that inserts or updates adds its row between its record and its end; an update has found its
id by then.

* `DurableVDB.Moves.adds` : the rows that a section adds are those that its call owes.
* `DurableVDB.Moves.room` : a section adds no row for which there is no room.
-/

namespace Vdb

namespace Database.VDB

open Metadata

variable {ι δ : Type} [ColumnIndex ι] [Distance δ] {K : Kernels δ} {db db' : VDB ι}
  {ext : ExternalId} {iid old : InternalId} {vec : Vec} {rec : Record}

omit [ColumnIndex ι] in
theorem rows_of_insertAllocate (he : db.insertAllocate K ext vec rec = .ok iid db') :
    db'.intToExt = db.intToExt ++ [ext] := by
  obtain ⟨id, db₁, hnode, he⟩ := Outcome.andThen_ok he
  obtain ⟨index, -, -, rfl⟩ := allocateNode_ok hnode
  obtain ⟨_, db₂, hrow, he⟩ := Outcome.andThen_ok he
  obtain ⟨m, -, rfl⟩ := Outcome.mapState_ok hrow
  cases he
  unfold VDB.keepAhead
  split_ifs <;> rfl

omit [ColumnIndex ι] in
theorem rows_of_updateAllocate {rec : Option Record} {nodes : Option (InternalId × InternalId)}
    (he : db.updateAllocate K ext vec rec = .ok nodes db') (hx : db.contains ext = true) :
    ∃ found, nodes = some found ∧ db'.intToExt = db.intToExt ++ [ext] := by
  unfold VDB.updateAllocate at he
  cases hold : db.extToInt ext with
  | none =>
    rw [VDB.contains, hold] at hx
    cases hx
  | some old =>
    rw [hold] at he
    obtain ⟨id, db₁, hnode, he⟩ := Outcome.andThen_ok he
    obtain ⟨index, -, -, rfl⟩ := allocateNode_ok hnode
    obtain ⟨_, db₂, hrow, he⟩ := Outcome.andThen_ok he
    obtain ⟨m, -, rfl⟩ := Outcome.mapState_ok hrow
    cases he
    exact ⟨_, rfl, rfl⟩

omit [Distance δ] in
theorem rows_of_insertPublish (he : db.insertPublish ext iid = .ok () db') :
    db'.intToExt = db.intToExt := by
  obtain ⟨_, db₁, hlive, he⟩ := Outcome.andThen_ok he
  obtain ⟨m, -, rfl⟩ := goLive_ok hlive
  cases he
  rfl

omit [Distance δ] in
theorem rows_of_updatePublish (he : db.updatePublish ext old iid = .ok () db') :
    db'.intToExt = db.intToExt := by
  obtain ⟨_, db₁, hlive, he⟩ := Outcome.andThen_ok he
  obtain ⟨_, db₂, hdead, he⟩ := Outcome.andThen_ok he
  cases he
  obtain ⟨m, -, rfl⟩ := goLive_ok hlive
  obtain ⟨m', -, rfl⟩ := goDead_ok hdead
  rfl

end Database.VDB

namespace Durable

open Metadata Database

/-- The mutation adds a row. -/
def Mutation.adds : Mutation → Bool
  | .insert _ _ _ | .update _ _ _ => true
  | .remove _ | .setMetadata _ _ => false

theorem Mutation.adds_toRecord (m : Mutation) (lsn : ℕ) : (m.toRecord lsn).adds = m.adds := by
  cases m <;> rfl

/-- The id whose row the mutation replaces. -/
def Mutation.replaces : Mutation → Option ExternalId
  | .update x _ _ => some x
  | .insert _ _ _ | .remove _ | .setMetadata _ _ => none

variable {ι δ : Type}

/-- The job of a call between its prefix and its application. -/
def Pc.ahead (pc : Pc δ) : Option Job :=
  match pc with
  | .apply job => some job
  | _ => pc.waiting

/-- A call that has logged its record is about to add a row. -/
def Pc.owes (pc : Pc δ) : Bool :=
  match pc with
  | .applying _ (.inserting _ _) | .applying _ (.updating _ _) => true
  | _ => pc.ahead.any fun job => job.mutation.adds

/-- The id that a call has found and whose row it is about to replace. -/
def Pc.replaces (pc : Pc δ) : Option ExternalId :=
  match pc with
  | .serialPrefix (.update x _ _) => some x
  | .applying job (.updating _ _) => some job.mutation.ext
  | _ => pc.ahead.bind fun job => job.mutation.replaces

namespace DurableVDB

variable [ColumnIndex ι] [Distance δ] {K : Kernels δ} {d d' : DurableVDB ι} {w : Bool} {env : Env}
  {pc pc' : Pc δ} {r : Option WalRecord} {config : VDBConfig}

omit [ColumnIndex ι] [Distance δ] in
theorem quiet_behindApply (d : DurableVDB ι) (job : Job) :
    (d.behindApply job : Pc δ).owes = false ∧ (d.behindApply job : Pc δ).replaces = none := by
  unfold behindApply
  split <;> exact ⟨rfl, rfl⟩

omit [ColumnIndex ι] [Distance δ] in
theorem ahead_behindPrefix (d : DurableVDB ι) (job : Job) :
    (d.behindPrefix job : Pc δ).ahead = some job ∧
      (d.behindPrefix job : Pc δ).owes = job.mutation.adds ∧
        (d.behindPrefix job : Pc δ).replaces = job.mutation.replaces := by
  unfold behindPrefix
  split <;> exact ⟨rfl, rfl, rfl⟩

/-- What a section does to the rows: it adds those that its call owes. -/
structure Adds (d d' : DurableVDB ι) (pc pc' : Pc δ) (r : Option WalRecord) : Prop where
  rows : d.db.intToExt.length + pc.owes.toNat + (r.any WalRecord.adds).toNat ≤
    d'.db.intToExt.length + pc'.owes.toNat
  replaces : ∀ x ∈ pc'.replaces, d'.db.contains x = true

omit [ColumnIndex ι] [Distance δ] in
/-- A section behind which no row is to be replaced. -/
theorem Adds.of_none (hnone : pc'.replaces = none)
    (hrows : d.db.intToExt.length + pc.owes.toNat + (r.any WalRecord.adds).toNat ≤
      d'.db.intToExt.length + pc'.owes.toNat) : Adds d d' pc pc' r where
  rows := hrows
  replaces x hx := by
    rw [hnone] at hx
    cases hx

omit [ColumnIndex ι] [Distance δ] in
/-- A section that leaves the database alone. -/
theorem Adds.of_same (hdb : d'.db = d.db) (howes : pc'.owes = pc.owes)
    (hreplaces : pc'.replaces = pc.replaces ∨ pc'.replaces = none)
    (h : ∀ x ∈ pc.replaces, d.db.contains x = true) : Adds d d' pc pc' none := by
  have hrows : d.db.intToExt.length + pc.owes.toNat ≤ d'.db.intToExt.length + pc'.owes.toNat := by
    rw [hdb, howes]
  rcases hreplaces with hsame | hnone
  · refine ⟨hrows, fun x hx => ?_⟩
    rw [hdb]
    exact h x (hsame ▸ hx)
  · exact .of_none hnone hrows

omit [Distance δ] in
/-- An application that starts. -/
theorem adds_of_applyStart {job : Job} {call : Option (Call δ)} {db : VDB ι}
    (happ : d.applyStart job.mutation = .ok call (d.withDb db))
    (h : ∀ x ∈ (Pc.apply job : Pc δ).replaces, d.db.contains x = true) :
    Adds d (d.withDb db) (.apply job) (call.elim (d.behindApply job) (.applying job)) none := by
  have hquiet : ∀ {db : VDB ι}, db.intToExt = d.db.intToExt → job.mutation.adds = false →
      Adds d (d.withDb db) (.apply job : Pc δ) (d.behindApply job) none := by
    intro db hrows hadds
    refine .of_none (quiet_behindApply d job).2 ?_
    have howes : (Pc.apply job : Pc δ).owes = false := hadds
    rw [howes, withDb, hrows]
    exact Nat.le_add_right ..
  obtain ⟨m, lsn, doCkpt⟩ := job
  cases m with
  | insert ext vec rec =>
    dsimp only [applyStart] at happ
    split at happ
    · cases happ
    · injection happ with hcall hdb
      cases hcall
      rw [← hdb]
      exact .of_same rfl rfl (.inr rfl) h
  | update ext vec rec =>
    dsimp only [applyStart] at happ
    split at happ
    · cases happ
    · injection happ with hcall hdb
      cases hcall
      rw [← hdb]
      exact .of_same rfl rfl (.inl rfl) h
  | remove ext =>
    obtain ⟨_, d₁, hremove, happ⟩ := Outcome.andThen_ok happ
    obtain ⟨db₁, he, rfl⟩ := Outcome.mapState_ok hremove
    cases happ
    exact hquiet (VDB.rows_of_remove he) rfl
  | setMetadata ext rec =>
    obtain ⟨_, d₁, hset, happ⟩ := Outcome.andThen_ok happ
    obtain ⟨db₁, he, rfl⟩ := Outcome.mapState_ok hset
    cases happ
    exact hquiet (VDB.rows_of_setMetadata he) rfl

/-- A locked phase of an application. -/
theorem adds_of_applyNext {job : Job} {call : Call δ} {next : Option (Call δ)} {db : VDB ι}
    (happ : d.applyNext K job.mutation.ext call = .ok next (d.withDb db))
    (h : ∀ x ∈ (Pc.applying job call).replaces, d.db.contains x = true) :
    Adds d (d.withDb db) (.applying job call) (next.elim (d.behindApply job) (.applying job))
      none := by
  have hquiet : ∀ {db : VDB ι}, d.db.intToExt.length + (Pc.applying job call).owes.toNat ≤
      db.intToExt.length → Adds d (d.withDb db) (.applying job call) (d.behindApply job) none :=
    fun hrows => .of_none (quiet_behindApply d job).2 (hrows.trans (Nat.le_add_right ..))
  cases call with
  | inserting vec rec =>
    obtain ⟨_, d₁, hallocate, happ⟩ := Outcome.andThen_ok happ
    obtain ⟨db₁, he, rfl⟩ := Outcome.mapState_ok hallocate
    cases happ
    refine .of_none rfl ?_
    rw [withDb, VDB.rows_of_insertAllocate he, List.length_append]
    exact le_rfl
  | updating vec rec =>
    obtain ⟨nodes, d₁, hallocate, happ⟩ := Outcome.andThen_ok happ
    obtain ⟨db₁, he, rfl⟩ := Outcome.mapState_ok hallocate
    obtain ⟨nodes, rfl, hrows⟩ := VDB.rows_of_updateAllocate he (h _ rfl)
    cases happ
    refine .of_none rfl ?_
    rw [withDb, hrows, List.length_append]
    exact le_rfl
  | insertLinking vec rec iid pc =>
    cases pc with
    | done =>
      obtain ⟨_, d₁, hpublish, happ⟩ := Outcome.andThen_ok happ
      obtain ⟨db₁, he, rfl⟩ := Outcome.mapState_ok hpublish
      cases happ
      exact hquiet (congrArg List.length (VDB.rows_of_insertPublish he)).ge
    | _ =>
      cases happ
      exact .of_none rfl le_rfl
  | updateLinking vec rec old iid pc =>
    cases pc with
    | done =>
      obtain ⟨_, d₁, hpublish, happ⟩ := Outcome.andThen_ok happ
      obtain ⟨db₁, he, rfl⟩ := Outcome.mapState_ok hpublish
      cases happ
      exact hquiet (congrArg List.length (VDB.rows_of_updatePublish he)).ge
    | _ =>
      cases happ
      exact .of_none rfl le_rfl

/-- **A section** of a call adds the row that it owes. -/
theorem Moves.adds (hm : d.Moves K w env pc pc' d' r)
    (hlook : ∀ req ext, pc = .lookUp req ext → req.looksUp = some ext)
    (h : ∀ x ∈ pc.replaces, d.db.contains x = true) : Adds d d' pc pc' r := by
  cases hm with
  | stays => exact .of_same rfl rfl (.inl rfl) h
  | found req ext hfound =>
    refine ⟨le_rfl, fun x hx => ?_⟩
    have hreq := hlook req ext rfl
    cases req with
    | update y vec rec =>
      cases hx
      cases hreq
      exact hfound
    | _ => cases hx
  | logs req job wal ops hw hmut hlsn happ =>
    obtain ⟨-, howes, hreplaces⟩ := ahead_behindPrefix (δ := δ) d job
    have hrows : (req.reserved d.db).intToExt = d.db.intToExt ∧
        (req.reserved d.db).extToInt = d.db.extToInt := by
      cases req <;> exact ⟨rfl, rfl⟩
    refine ⟨?_, fun x hx => ?_⟩
    · dsimp only
      rw [hrows.1, howes, Option.any_some, Mutation.adds_toRecord]
      exact le_rfl
    · rw [hreplaces] at hx
      -- an update has found its id before it logs
      have hfound : d.db.contains x = true := by
        refine h x ?_
        cases req with
        | update y vec rec =>
          obtain ⟨effective, -, hmut⟩ := Option.map_eq_some_iff.1 hmut
          rw [← hmut] at hx
          exact hx
        | _ =>
          rw [← Option.some.inj hmut] at hx
          cases hx
      unfold VDB.contains at hfound ⊢
      dsimp only
      rwa [hrows.2]
  | leads job hlt hsync => exact .of_same rfl rfl (.inl rfl) h
  | commits job hle => exact .of_same rfl rfl (.inl rfl) h
  | captures p name hfd => cases p <;> exact .of_same rfl rfl (.inl rfl) h
  | syncs p name target hsync => cases p <;> exact .of_same rfl rfl (.inl rfl) h
  | commitSynced job target hle => exact .of_same rfl rfl (.inl rfl) h
  | leadsAgain job target hlt => exact .of_same rfl rfl (.inl rfl) h
  | logsCheckpoint reply lsn wal happ => exact .of_none rfl le_rfl
  | applies job call db happ => exact adds_of_applyStart happ h
  | continues job call next db happ => exact adds_of_applyNext happ h
  | finishes job => exact .of_same rfl (by split_ifs <;> rfl) (.inr (by split_ifs <;> rfl)) h
  | _ => exact .of_same rfl rfl (.inr rfl) h

/-- What a section does to the records that are still to be applied. -/
structure Checks (d : DurableVDB ι) (pc pc' : Pc δ) (r : Option WalRecord) : Prop where
  ahead : ∀ job ∈ pc.ahead, (job.mutation.toRecord job.lsn).Accepted d.db.metadata.schema ∨
    job ∈ pc'.ahead
  logged : ∀ rec ∈ r, rec.Accepted d.db.metadata.schema ∨
    ∃ job ∈ pc'.ahead, job.mutation.toRecord job.lsn = rec

/-- **A record** has passed when its call goes on to the rows. -/
theorem Moves.checks (hm : d.Moves K w env pc pc' d' r) : Checks d pc pc' r := by
  cases hm with
  | stays => exact ⟨fun job hjob => .inr hjob, nofun⟩
  | logs req job wal ops hw hmut hlsn happ =>
    refine ⟨nofun, fun rec hrec => .inr ⟨job, (ahead_behindPrefix d job).1, ?_⟩⟩
    exact Option.some.inj hrec
  | commits job hle => exact ⟨fun job hjob => .inr hjob, nofun⟩
  | leads job hlt hsync => exact ⟨fun job hjob => .inr hjob, nofun⟩
  | captures p name hfd => exact ⟨fun job hjob => .inr (by cases p <;> exact hjob), nofun⟩
  | syncs p name target hsync =>
    exact ⟨fun job hjob => .inr (by cases p <;> exact hjob), nofun⟩
  | commitSynced job target hle => exact ⟨fun job hjob => .inr hjob, nofun⟩
  | leadsAgain job target hlt => exact ⟨fun job hjob => .inr hjob, nofun⟩
  | applies job call db happ =>
    refine ⟨fun job' hjob => .inl ?_, nofun⟩
    cases hjob
    exact accepted_of_applyStart (δ := δ) (by rw [happ]; trivial)
  | logsCheckpoint reply lsn wal happ =>
    refine ⟨nofun, fun rec hrec => .inl ?_⟩
    cases hrec
    trivial
  | _ => exact ⟨nofun, nofun⟩

/-! ### Room for the rows -/

omit [ColumnIndex ι] in
/-- A database that takes a node has room for it. -/
theorem room_allocateNode {db : VDB ι} (h : db.Kept config) (ext : ExternalId) (vec : Vec) :
    (db.allocateNode K ext vec).state.intToExt.length ≤ config.kind.capacity := by
  cases ha : db.allocateNode K ext vec with
  | ok iid db' =>
    obtain ⟨-, hlt⟩ := h.room ha
    obtain ⟨index, -, -, rfl⟩ := VDB.allocateNode_ok ha
    rw [← h.aligned.ids] at hlt
    rw [Outcome.state, List.length_append]
    exact hlt
  | error e db' =>
    have hsame : db'.intToExt = db.intToExt := by
      unfold VDB.allocateNode at ha
      split at ha
      · cases ha
        rfl
      · split_ifs at ha
        cases ha
        rfl
    rw [Outcome.state, hsame, h.aligned.ids]
    exact h.size

omit [ColumnIndex ι] in
theorem room_insertAllocate {db : VDB ι} (h : db.Kept config) (ext : ExternalId) (vec : Vec)
    (rec : Record) :
    (db.insertAllocate K ext vec rec).state.intToExt.length ≤ config.kind.capacity := by
  have hnode := room_allocateNode (K := K) h ext vec
  refine Outcome.andThen_state (P := fun db : VDB ι => db.intToExt.length ≤ config.kind.capacity)
    hnode fun iid db₁ h₁ => ?_
  refine Outcome.andThen_state (P := fun db : VDB ι => db.intToExt.length ≤ config.kind.capacity)
    ?_ fun _ db₂ h₂ => ?_
  · rw [Outcome.state_mapState]
    exact h₁
  · unfold VDB.keepAhead
    split_ifs <;> exact h₂

omit [ColumnIndex ι] in
theorem room_updateAllocate {db : VDB ι} (h : db.Kept config) (ext : ExternalId) (vec : Vec)
    (rec : Option Record) :
    (db.updateAllocate K ext vec rec).state.intToExt.length ≤ config.kind.capacity := by
  unfold VDB.updateAllocate
  split
  · exact h.aligned.ids.trans_le h.size
  · have hnode := room_allocateNode (K := K) h ext vec
    refine Outcome.andThen_state (P := fun db : VDB ι => db.intToExt.length ≤ config.kind.capacity)
      hnode fun iid db₁ h₁ => ?_
    refine Outcome.andThen_state (P := fun db : VDB ι => db.intToExt.length ≤ config.kind.capacity)
      ?_ fun _ db₂ h₂ => h₂
    rw [Outcome.state_mapState]
    exact h₁

omit [Distance δ] in
theorem room_applyStart (h : d.db.Kept config) (m : Mutation) :
    (d.applyStart (δ := δ) m).state.db.intToExt.length ≤ config.kind.capacity := by
  cases m with
  | insert ext vec rec =>
    dsimp only [applyStart]
    split <;> exact h.aligned.ids.trans_le h.size
  | remove ext =>
    rw [applyStart, Outcome.state_andThen_ok, Outcome.state_mapState]
    have hkept : (d.db.remove ext).state.Kept config := h.remove
    exact hkept.aligned.ids.trans_le hkept.size
  | update ext vec rec =>
    dsimp only [applyStart]
    split <;> exact h.aligned.ids.trans_le h.size
  | setMetadata ext rec =>
    rw [applyStart, Outcome.state_andThen_ok, Outcome.state_mapState]
    have hkept : (d.db.setMetadata ext rec).state.Kept config := h.setMetadata
    exact hkept.aligned.ids.trans_le hkept.size

theorem room_applyNext (h : d.db.Kept config) (ext : ExternalId) (call : Call δ) :
    (d.applyNext K ext call).state.db.intToExt.length ≤ config.kind.capacity := by
  have hrows := h.aligned.ids.trans_le h.size
  cases call with
  | inserting vec rec =>
    rw [applyNext, Outcome.state_andThen_ok, Outcome.state_mapState]
    exact room_insertAllocate h ext vec rec
  | updating vec rec =>
    rw [applyNext, Outcome.state_andThen_ok, Outcome.state_mapState]
    exact room_updateAllocate h ext vec rec
  | insertLinking vec rec iid pc =>
    cases pc with
    | done =>
      rw [applyNext, Outcome.state_andThen_ok, Outcome.state_mapState]
      have hkept : (d.db.insertPublish ext iid).state.Kept config := h.insertPublish
      exact hkept.aligned.ids.trans_le hkept.size
    | _ => exact hrows
  | updateLinking vec rec old iid pc =>
    cases pc with
    | done =>
      rw [applyNext, Outcome.state_andThen_ok, Outcome.state_mapState]
      have hkept : (d.db.updatePublish ext old iid).state.Kept config := h.updatePublish
      exact hkept.aligned.ids.trans_le hkept.size
    | _ => exact hrows

/-- **A section** adds no row for which there is no room. -/
theorem Moves.room (hm : d.Moves K w env pc pc' d' r) (h : d.db.Kept config) :
    d'.db.intToExt.length ≤ config.kind.capacity := by
  have hrows := h.aligned.ids.trans_le h.size
  cases hm with
  | logs req job wal ops hw hmut hlsn happ => cases req <;> exact hrows
  | applies job call db happ =>
    have hroom := room_applyStart (δ := δ) h job.mutation
    rwa [happ] at hroom
  | continues job call next db happ =>
    have hroom := room_applyNext (K := K) h job.mutation.ext call
    rwa [happ] at hroom
  | _ => exact hrows

theorem Throws.room {e : Exn} (ht : d.Throws K w env pc e d') (h : d.db.Kept config) :
    d'.db.intToExt.length ≤ config.kind.capacity := by
  have hrows := h.aligned.ids.trans_le h.size
  cases ht with
  | log req e m wal hw hmut hwal => cases req <;> exact hrows
  | apply job e db happ =>
    have hroom := room_applyStart (δ := δ) h job.mutation
    rwa [happ] at hroom
  | next job call e db happ =>
    have hroom := room_applyNext (K := K) h job.mutation.ext call
    rwa [happ] at hroom
  | save reply e replaced => split_ifs <;> exact hrows
  | _ => exact hrows

end DurableVDB

end Durable

end Vdb
