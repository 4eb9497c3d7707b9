import Vdb.Database.Logical
import Vdb.Metadata.Sizes
import Vdb.Lib.Run

/-!
# Concurrent calls

A `System` is a database with the calls in flight on it.  Calls on the same external id are not
serialised by the database, so every call in flight is on an id of its own; an `Action` starts a
call, runs one phase of a call, or is a call of one phase.  While a call links its node other
actions happen between any two sections of the link.
-/

namespace Vdb

namespace Database

open Metadata
open Hnsw (Pc)

/-- A call that has started and not ended. -/
inductive Call (δ : Type) where
  /-- An insert that has its id, but no node yet. -/
  | inserting (vec : Vec) (rec : Record)
  /-- An insert whose node is being linked. -/
  | insertLinking (vec : Vec) (rec : Record) (iid : InternalId) (pc : Pc δ)
  /-- An update that has not looked its id up yet. -/
  | updating (vec : Vec) (rec : Option Record)
  /-- An update whose replacement node is being linked. -/
  | updateLinking (vec : Vec) (rec : Option Record) (old iid : InternalId) (pc : Pc δ)

/-- The vector of a call that has no node yet. -/
def Call.unplaced {δ : Type} : Call δ → Option Vec
  | .inserting vec _ => some vec
  | .updating vec _ => some vec
  | _ => none

/-- The pending node of a call. -/
def Call.node {δ : Type} : Call δ → Option InternalId
  | .insertLinking _ _ iid _ => some iid
  | .updateLinking _ _ _ iid _ => some iid
  | _ => none

/-- The record of a call has the Bool values `attr_bool` builds. -/
def Call.BoolsOk {δ : Type} : Call δ → Prop
  | .inserting _ rec => rec.BoolsOk
  | .updating _ rec => ∀ r ∈ rec, r.BoolsOk
  | _ => True

/-- The node of the call is linked, so that the call is about to publish it. -/
def Call.Linked {δ : Type} : Call δ → Prop
  | .insertLinking _ _ _ .done => True
  | .updateLinking _ _ _ _ .done => True
  | _ => False

structure System (ι δ : Type) where
  db : VDB ι
  /-- By the external id the call is on. -/
  calls : ExternalId → Option (Call δ) := fun _ => none
  /-- The ids `reserve_id` has given, and those of all inserted rows. -/
  handedOut : List ExternalId := []

inductive Action where
  /-- `insert`, up to the id it reserves. -/
  | insert (vec : Vec) (rec : Record)
  | insertReserved (ext : ExternalId) (vec : Vec) (rec : Record)
  | update (ext : ExternalId) (vec : Vec) (rec : Option Record)
  /-- Phase 1 of the call on this id. -/
  | allocate (ext : ExternalId)
  /-- The next section of phase 2. -/
  | link (ext : ExternalId)
  /-- Phase 3, once the node is linked; the call returns. -/
  | publish (ext : ExternalId)
  | remove (ext : ExternalId)
  | setMetadata (ext : ExternalId) (rec : Record)
  | compact
  deriving DecidableEq

/-- The record of an action. -/
def Action.record : Action → Option Record
  | .insert _ rec => some rec
  | .insertReserved _ _ rec => some rec
  | .update _ _ rec => rec
  | .setMetadata _ rec => some rec
  | _ => none

namespace System

variable {ι δ : Type} [ColumnIndex ι] [Distance δ] (K : Kernels δ) (s : System ι δ)

def setCall (ext : ExternalId) (call : Option (Call δ)) : System ι δ :=
  { s with calls := Function.update s.calls ext call }

/-- A call starts on `ext` with a record that has been checked. -/
def begin (checked : Except Exn Unit) (ext : ExternalId) (call : Call δ) :
    Outcome (System ι δ) Unit :=
  match checked with
  | .error e => .error e s
  | .ok _ => .ok () (s.setCall ext (some call))

/-- A phase of the call on `ext`: the call goes on as `next` says, unless it throws. -/
def phase {α : Type} (ext : ExternalId) (o : Outcome (VDB ι) α) (next : α → Option (Call δ)) :
    Outcome (System ι δ) Unit :=
  match o with
  | .ok a db => .ok () ({ s with db }.setCall ext (next a))
  | .error e db => .error e ({ s with db }.setCall ext none)

/-- A call of one phase. -/
def whole {α : Type} (o : Outcome (VDB ι) α) : Outcome (System ι δ) Unit :=
  (o.mapState fun db => { s with db }).andThen fun _ s => .ok () s

/-- One section of a link. -/
def linkSection (ext : ExternalId) (iid : InternalId) (pc : Pc δ) (next : Pc δ → Call δ) :
    System ι δ :=
  let (index, pc) := s.db.index.linkSection K s.db.config.metric iid pc
  { s with db := s.db.withIndex index }.setCall ext (some (next pc))

def perform : Action → Outcome (System ι δ) Unit
  | .insert vec rec =>
    match s.db.validate rec with
    | .error e => .error e s
    | .ok _ =>
      let (ext, db) := s.db.reserveId
      .ok () ({ s with db, handedOut := s.handedOut ++ [ext] }.setCall ext
        (some (.inserting vec rec)))
  | .insertReserved ext vec rec => s.begin (s.db.validate rec) ext (.inserting vec rec)
  | .update ext vec rec => s.begin (s.db.validateUpdate rec) ext (.updating vec rec)
  | .allocate ext =>
    match s.calls ext with
    | some (.inserting vec rec) =>
      (s.phase ext (s.db.insertAllocate K ext vec rec) fun iid =>
        some (.insertLinking vec rec iid .start)).andThen fun _ s =>
          .ok () { s with handedOut := s.handedOut ++ [ext] }
    | some (.updating vec rec) =>
      s.phase ext (s.db.updateAllocate K ext vec rec) fun nodes =>
        nodes.map fun (old, iid) => .updateLinking vec rec old iid .start
    | _ => .ok () s
  | .link ext =>
    match s.calls ext with
    | some (.insertLinking vec rec iid pc) =>
      .ok () (s.linkSection K ext iid pc (.insertLinking vec rec iid))
    | some (.updateLinking vec rec old iid pc) =>
      .ok () (s.linkSection K ext iid pc (.updateLinking vec rec old iid))
    | _ => .ok () s
  | .publish ext =>
    match s.calls ext with
    | some (.insertLinking _ _ iid .done) =>
      s.phase ext (s.db.insertPublish ext iid) fun _ => none
    | some (.updateLinking _ _ old iid .done) =>
      s.phase ext (s.db.updatePublish ext old iid) fun _ => none
    | _ => .ok () s
  | .remove ext => s.whole (s.db.remove ext)
  | .setMetadata ext rec => s.whole (s.db.setMetadata ext rec)
  | .compact => s.whole (s.db.compact K)

def act (a : Action) : System ι δ := (s.perform K a).state

/-! ### What the callers keep to -/

/-- The id an action starts a call on, or is a call on. -/
def target : Action → Option ExternalId
  | .insert _ _ => some s.db.nextExtId
  | .insertReserved ext _ _ => some ext
  | .update ext _ _ => some ext
  | .remove ext => some ext
  | .setMetadata ext _ => some ext
  | _ => none

/-- The id an insert takes is not live, and another one follows it. -/
def Fresh : Action → Prop
  | .insert _ _ => s.db.nextExtId + 1 < 2 ^ 64
  | .insertReserved ext _ _ => s.db.extToInt ext = none ∧ ext + 1 < 2 ^ 64
  | _ => True

/-- The call throws because its record does not match the schema, or the index takes no vector. -/
def Refused : Action → Prop
  | .insert _ rec => s.db.validate rec ≠ .ok ()
  | .insertReserved _ _ rec => s.db.validate rec ≠ .ok ()
  | .update _ _ rec => s.db.validateUpdate rec ≠ .ok ()
  | .setMetadata _ rec => s.db.validate rec ≠ .ok ()
  | .allocate ext => ∃ call ∈ s.calls ext, ∃ vec ∈ call.unplaced,
    ¬ (s.db.index.allocate K s.db.config.metric vec).Returns
  | _ => False

/-- An action between calls on distinct ids: inserts take fresh ids, and nothing throws but for the
record of a call or a full index. -/
structure Orderly (a : Action) : Prop where
  free : ∀ x ∈ s.target a, s.calls x = none
  fresh : s.Fresh a
  returns : (s.perform K a).Returns ∨ s.Refused K a

/-- The values have an exact encoding. -/
structure Exact (a : Action) : Prop where
  bools : ∀ rec ∈ a.record, rec.BoolsOk
  fits : (s.act K a).db.Fits

/-- A compaction finds no pending node. -/
def Quiet (a : Action) : Prop := a = .compact → ∀ x, ∀ call ∈ s.calls x, call.node = none

instance : DecidablePred s.Fresh
  | .insert _ _ => inferInstanceAs (Decidable (s.db.nextExtId + 1 < 2 ^ 64))
  | .insertReserved ext _ _ =>
    inferInstanceAs (Decidable (s.db.extToInt ext = none ∧ ext + 1 < 2 ^ 64))
  | .update _ _ _ => .isTrue trivial
  | .allocate _ => .isTrue trivial
  | .link _ => .isTrue trivial
  | .publish _ => .isTrue trivial
  | .remove _ => .isTrue trivial
  | .setMetadata _ _ => .isTrue trivial
  | .compact => .isTrue trivial

instance : DecidablePred (s.Refused K)
  | .insert _ rec => inferInstanceAs (Decidable (s.db.validate rec ≠ .ok ()))
  | .insertReserved _ _ rec => inferInstanceAs (Decidable (s.db.validate rec ≠ .ok ()))
  | .update _ _ rec => inferInstanceAs (Decidable (s.db.validateUpdate rec ≠ .ok ()))
  | .setMetadata _ rec => inferInstanceAs (Decidable (s.db.validate rec ≠ .ok ()))
  | .allocate ext => inferInstanceAs (Decidable (∃ call ∈ s.calls ext, ∃ vec ∈ call.unplaced,
      ¬ (s.db.index.allocate K s.db.config.metric vec).Returns))
  | .link _ => .isFalse id
  | .publish _ => .isFalse id
  | .remove _ => .isFalse id
  | .compact => .isFalse id

instance (a : Action) : Decidable (s.Orderly K a) :=
  decidable_of_iff ((∀ x ∈ s.target a, s.calls x = none) ∧ s.Fresh a ∧
      ((s.perform K a).Returns ∨ s.Refused K a))
    ⟨fun h => ⟨h.1, h.2.1, h.2.2⟩, fun h => ⟨h.free, h.fresh, h.returns⟩⟩

instance (a : Action) : Decidable (s.Exact K a) :=
  decidable_of_iff ((∀ rec ∈ a.record, rec.BoolsOk) ∧ (s.act K a).db.Fits)
    ⟨fun h => ⟨h.1, h.2⟩, fun h => ⟨h.bools, h.fits⟩⟩

variable {K} {s} {E : Prop} {J : ℕ → Column ι → List ColRow → Prop}
  {W : ℕ → AttrValue → AttrValue → Prop} {config : VDBConfig} {db db' : VDB ι} {es es' : List Entry}
  {ext x : ExternalId} {a : Action} {call : Call δ}

open VDB (Lives replacement)

/-- What a call in flight on `x` counts on. -/
def CallOk (db : VDB ι) (es : List Entry) (x : ExternalId) : Call δ → Prop
  | .inserting _ _ => (∀ i, ¬ Lives es x i) ∧ x + 1 < 2 ^ 64
  | .insertLinking vec rec iid pc =>
    es[iid]? = some ⟨x, vec, .ofRecord db.config.schema.length rec⟩ ∧ (∀ i, ¬ Lives es x i) ∧
      db.index.PcValid iid pc
  | .updating _ _ => True
  | .updateLinking vec rec old iid pc =>
    ∃ o : Entry, es[old]? = some o ∧ o.isLive = true ∧ o.ext = x ∧
      es[iid]? = some ⟨x, vec, replacement db.config.schema.length o rec⟩ ∧ db.index.PcValid iid pc

/-- The database holds the entries, and the calls in flight can go on. -/
structure Inv (J : ℕ → Column ι → List ColRow → Prop) (config : VDBConfig) (s : System ι δ)
    (es : List Entry) : Prop where
  holds : s.db.Holds J config es
  calls : ∀ x call, s.calls x = some call → CallOk s.db es x call
  ids : ∀ x ∈ es.map Entry.ext, x < s.db.nextExtId
  handedOut : ∀ x ∈ s.handedOut, x < s.db.nextExtId

omit [ColumnIndex ι] [Distance δ] in
/-- A call goes on when the rows of its id are still there, and the nodes of the index. -/
theorem CallOk.frame (h : CallOk db es x call) (hconfig : db'.config = db.config)
    (hrows : ∀ (i : InternalId) (e : Entry), es[i]? = some e → e.ext = x → es'[i]? = some e)
    (hlives : ∀ i, Lives es' x i → Lives es x i) (hgrows : db.index.Grows db'.index) :
    CallOk db' es' x call := by
  cases call with
  | inserting vec rec => exact ⟨fun i hi => h.1 i (hlives i hi), h.2⟩
  | insertLinking vec rec iid pc =>
    obtain ⟨hi, hnone, hpc⟩ := h
    exact ⟨hconfig ▸ hrows _ _ hi rfl, fun i hi => hnone i (hlives i hi), hpc.mono hgrows⟩
  | updating vec rec => trivial
  | updateLinking vec rec old iid pc =>
    obtain ⟨o, hold, hlive, hext, hi, hpc⟩ := h
    exact ⟨o, hrows _ _ hold hext, hlive, hext, hconfig ▸ hrows _ _ hi rfl, hpc.mono hgrows⟩

/-! ### What a phase leaves of the index -/

theorem grows_refl (x : Index) : x.Grows x := by
  cases x with
  | hnsw x => exact fun _ _ h => h
  | _ => trivial

omit [ColumnIndex ι] in
theorem allocateNode_refused (ext : ExternalId) {vec : Vec}
    (h : ¬ (db.index.allocate K db.config.metric vec).Returns) :
    ∃ e, db.allocateNode K ext vec = .error e db := by
  unfold VDB.allocateNode
  cases ha : db.index.allocate K db.config.metric vec with
  | ok iid index =>
    rw [ha] at h
    exact absurd trivial h
  | error e index =>
    obtain rfl := Index.allocate_error ha
    exact ⟨e, rfl⟩

omit [ColumnIndex ι] in
theorem grows_allocateNode (hs : db.index.Sound) {vec : Vec} {iid : InternalId}
    (he : db.allocateNode K ext vec = .ok iid db') : db.index.Grows db'.index := by
  obtain ⟨index, hindex, -, rfl⟩ := VDB.allocateNode_ok he
  exact (hs.allocate hindex).2

omit [ColumnIndex ι] in
theorem grows_insertAllocate (hs : db.index.Sound) {vec : Vec} {rec : Record} {iid : InternalId}
    (he : db.insertAllocate K ext vec rec = .ok iid db') : db.index.Grows db'.index := by
  obtain ⟨id, db₁, ha, he⟩ := Outcome.andThen_ok he
  obtain ⟨_, db₂, hm, he⟩ := Outcome.andThen_ok he
  obtain ⟨m, -, rfl⟩ := Outcome.mapState_ok hm
  cases he
  have hindex : ((db₁.withMetadata m).keepAhead ext).index = db₁.index := by
    unfold VDB.keepAhead
    split_ifs <;> rfl
  exact hindex ▸ grows_allocateNode hs ha

omit [ColumnIndex ι] in
theorem grows_updateAllocate (hs : db.index.Sound) {vec : Vec} {rec : Option Record}
    {nodes : Option (InternalId × InternalId)}
    (he : db.updateAllocate K ext vec rec = .ok nodes db') : db.index.Grows db'.index := by
  unfold VDB.updateAllocate at he
  cases hx : db.extToInt ext with
  | none =>
    rw [hx] at he
    cases he
    exact grows_refl _
  | some old =>
    rw [hx] at he
    obtain ⟨id, db₁, ha, he⟩ := Outcome.andThen_ok he
    obtain ⟨_, db₂, hm, he⟩ := Outcome.andThen_ok he
    obtain ⟨m, -, rfl⟩ := Outcome.mapState_ok hm
    cases he
    exact show db.index.Grows db₁.index from grows_allocateNode hs ha

theorem index_insertPublish {iid : InternalId} (he : db.insertPublish ext iid = .ok () db') :
    db'.index = db.index := by
  obtain ⟨_, db₁, hg, he⟩ := Outcome.andThen_ok he
  obtain ⟨m, -, rfl⟩ := VDB.goLive_ok hg
  cases he
  rfl

theorem index_updatePublish {old iid : InternalId}
    (he : db.updatePublish ext old iid = .ok () db') : db'.index = db.index := by
  obtain ⟨_, db₁, hg, he⟩ := Outcome.andThen_ok he
  obtain ⟨m, -, rfl⟩ := VDB.goLive_ok hg
  obtain ⟨_, db₂, hd, he⟩ := Outcome.andThen_ok he
  obtain ⟨m', -, rfl⟩ := VDB.goDead_ok hd
  cases he
  rfl

theorem index_remove {b : Bool} (he : db.remove ext = .ok b db') : db'.index = db.index := by
  unfold VDB.remove at he
  cases hx : db.extToInt ext with
  | none =>
    rw [hx] at he
    cases he
    rfl
  | some iid =>
    rw [hx] at he
    obtain ⟨_, db₁, hd, he⟩ := Outcome.andThen_ok he
    obtain ⟨m, -, rfl⟩ := VDB.goDead_ok hd
    cases he
    rfl

theorem index_setMetadata {rec : Record} {b : Bool} (he : db.setMetadata ext rec = .ok b db') :
    db'.index = db.index := by
  unfold VDB.setMetadata at he
  cases hv : db.validate rec with
  | error e =>
    rw [hv] at he
    cases he
  | ok _ =>
    rw [hv] at he
    cases hx : db.extToInt ext with
    | none =>
      rw [hx] at he
      cases he
      rfl
    | some iid =>
      rw [hx] at he
      obtain ⟨_, db₁, hm, he⟩ := Outcome.andThen_ok he
      obtain ⟨m, -, rfl⟩ := Outcome.mapState_ok hm
      cases he
      rfl

/-! ### What each action keeps -/

variable {s' : System ι δ} {e : Entry} {i : InternalId}

omit [ColumnIndex ι] [Distance δ] in
/-- An action on the rows of `ext` leaves the calls on other ids alone. -/
theorem Inv.step (h : s.Inv J config es) (ext : ExternalId) (hholds : s'.db.Holds J config es')
    (hcalls : ∀ x, x ≠ ext → s'.calls x = s.calls x)
    (hself : ∀ call, s'.calls ext = some call → CallOk s'.db es' ext call)
    (hrows : ∀ (i : InternalId) (e : Entry), es[i]? = some e → e.ext ≠ ext → es'[i]? = some e)
    (hlives : ∀ x i, x ≠ ext → Lives es' x i → Lives es x i)
    (hgrows : s.db.index.Grows s'.db.index)
    (hids : ∀ x ∈ es'.map Entry.ext, x < s'.db.nextExtId)
    (hout : ∀ x ∈ s'.handedOut, x < s'.db.nextExtId) : s'.Inv J config es' where
  holds := hholds
  calls x call hx := by
    by_cases hne : x = ext
    · subst hne
      exact hself call hx
    · rw [hcalls x hne] at hx
      exact (h.calls x call hx).frame (hholds.configured.trans h.holds.configured.symm)
        (fun i e hi he => hrows i e hi (he ▸ hne)) (fun i => hlives x i hne) hgrows
  ids := hids
  handedOut := hout

omit [ColumnIndex ι] [Distance δ] in
/-- An action that changes no row. -/
theorem Inv.same (h : s.Inv J config es) (ext : ExternalId) (hholds : s'.db.Holds J config es)
    (hcalls : ∀ x, x ≠ ext → s'.calls x = s.calls x)
    (hself : ∀ call, s'.calls ext = some call → CallOk s'.db es ext call)
    (hgrows : s.db.index.Grows s'.db.index) (hnext : s.db.nextExtId ≤ s'.db.nextExtId)
    (hout : ∀ x ∈ s'.handedOut, x < s'.db.nextExtId) : s'.Inv J config es :=
  h.step ext hholds hcalls hself (fun _ _ hi _ => hi) (fun _ _ _ hi => hi) hgrows
    (fun x hx => (h.ids x hx).trans_le hnext) hout

omit [ColumnIndex ι] [Distance δ] in
theorem calls_setCall (s : System ι δ) (ext : ExternalId) (call : Option (Call δ)) (x : ExternalId)
    (hx : x ≠ ext) : (s.setCall ext call).calls x = s.calls x :=
  Function.update_of_ne hx ..

omit [ColumnIndex ι] [Distance δ] in
theorem calls_setCall_self (s : System ι δ) (ext : ExternalId) (call : Option (Call δ)) :
    (s.setCall ext call).calls ext = call := Function.update_self ..

omit [ColumnIndex ι] [Distance δ] in
/-- A call that ends without an effect. -/
theorem Inv.ended (h : s.Inv J config es) (ext : ExternalId) (out : List ExternalId)
    (hout : ∀ x ∈ out, x < s.db.nextExtId) :
    ({ s with handedOut := out }.setCall ext none).Inv J config es :=
  h.same ext h.holds (fun x => calls_setCall _ ext none x)
    (fun call hc => by rw [calls_setCall_self] at hc; cases hc) (grows_refl _) le_rfl hout

omit [ColumnIndex ι] [Distance δ] in
/-- A call that starts. -/
theorem Inv.begin (h : s.Inv J config es) {checked : Except Exn Unit} (call : Call δ)
    (hcall : CallOk s.db es ext call) :
    (s.begin checked ext call).state.Inv J config es := by
  unfold System.begin
  cases checked with
  | error e => exact h
  | ok _ =>
    refine h.same ext h.holds (fun x => calls_setCall _ ext _ x) (fun c hc => ?_)
      (grows_refl _) le_rfl h.handedOut
    rw [show c = call from (Option.some.inj ((calls_setCall_self ..).symm.trans hc)).symm]
    exact hcall

omit [ColumnIndex ι] [Distance δ] in
theorem rows_modify {upd : Entry → Entry} (hi : es[i]? = some e) (hext : e.ext = ext)
    (j : InternalId)
    (e' : Entry) (hj : es[j]? = some e') (hne : e'.ext ≠ ext) :
    (es.modify i upd)[j]? = some e' := by
  refine (VDB.getElem?_modify_ne ?_).trans hj
  rintro rfl
  rw [hi] at hj
  cases hj
  exact hne hext

omit [ColumnIndex ι] [Distance δ] in
theorem lives_of_modify {upd : Entry → Entry} (hi : es[i]? = some e) (hext : e.ext = ext)
    (hupd : (upd e).ext = e.ext) (x : ExternalId) (j : InternalId) (hx : x ≠ ext)
    (h : Lives (es.modify i upd) x j) : Lives es x j := by
  rw [VDB.lives_modify hi hupd] at h
  split_ifs at h with hji
  · exact absurd (h.2.symm.trans hext) hx
  · exact h

omit [ColumnIndex ι] [Distance δ] in
theorem rows_append (j : InternalId) (e' : Entry) (hj : es[j]? = some e') :
    (es ++ [e])[j]? = some e' :=
  (List.getElem?_append_left (List.getElem?_eq_some_iff.1 hj).1).trans hj

theorem Inv.act_insert (h : s.Inv J config es) {vec : Vec} {rec : Record}
    (ho : s.Orderly K (.insert vec rec)) : (s.act K (.insert vec rec)).Inv J config es := by
  dsimp only [System.act, perform]
  cases hv : s.db.validate rec with
  | error e => exact h
  | ok _ =>
    have hnext : (s.db.nextExtId + 1) % 2 ^ 64 = s.db.nextExtId + 1 := Nat.mod_eq_of_lt ho.fresh
    dsimp only [VDB.reserveId, Outcome.state]
    rw [hnext]
    refine h.same s.db.nextExtId { h.holds with } (fun x => calls_setCall _ _ _ x)
      (fun c hc => ?_) (grows_refl _) (Nat.le_succ _) fun x hx => ?_
    · rw [calls_setCall_self] at hc
      cases hc
      refine ⟨fun i hi => ?_, ho.fresh⟩
      obtain ⟨e, hi, -, hext⟩ := hi
      have := h.ids e.ext (List.mem_map_of_mem (List.mem_of_getElem? hi))
      exact absurd hext this.ne
    · rcases List.mem_append.1 hx with hx | hx
      · exact (h.handedOut x hx).trans (Nat.lt_succ_self _)
      · rw [List.mem_singleton.1 hx]
        exact Nat.lt_succ_self _

theorem Inv.act_insertReserved (h : s.Inv J config es) {vec : Vec} {rec : Record}
    (ho : s.Orderly K (.insertReserved ext vec rec)) :
    (s.act K (.insertReserved ext vec rec)).Inv J config es := by
  obtain ⟨hnone, hlt⟩ := ho.fresh
  refine h.begin (.inserting vec rec) ⟨fun i hi => ?_, hlt⟩
  rw [(h.holds.map ext i).2 hi] at hnone
  cases hnone

theorem Inv.act_update (h : s.Inv J config es) {vec : Vec} {rec : Option Record} :
    (s.act K (.update ext vec rec)).Inv J config es :=
  h.begin (.updating vec rec) trivial

omit [ColumnIndex ι] in
/-- An id that has been inserted is behind the next one. -/
theorem lt_keepAhead (db : VDB ι) (hlt : ext + 1 < 2 ^ 64) :
    ext < (db.keepAhead ext).nextExtId ∧ db.nextExtId ≤ (db.keepAhead ext).nextExtId := by
  unfold VDB.keepAhead
  split_ifs with hle
  · dsimp only
    rw [Nat.mod_eq_of_lt hlt]
    exact ⟨Nat.lt_succ_self _, hle.trans (Nat.le_succ _)⟩
  · exact ⟨not_le.1 hle, le_rfl⟩

omit [ColumnIndex ι] [Distance δ] in
/-- The entries with one more row under `ext`. -/
theorem Inv.pushed (h : s.Inv J config es) (vec : Vec) {row : Row} (hrow : row.isLive = false)
    {n : ℕ} (hn : s.db.nextExtId ≤ n) (hext : ext < n) :
    (∀ (i : InternalId) (e : Entry), es[i]? = some e → e.ext ≠ ext →
        (es ++ [Entry.mk ext vec row])[i]? = some e) ∧
      (∀ x i, x ≠ ext → Lives (es ++ [Entry.mk ext vec row]) x i → Lives es x i) ∧
      ∀ x ∈ (es ++ [Entry.mk ext vec row]).map Entry.ext, x < n := by
  refine ⟨fun i e hi _ => rows_append i e hi, fun x i _ hi => ?_, fun x hx => ?_⟩
  · exact (VDB.lives_append x i (e := Entry.mk ext vec row) hrow).1 hi
  · rw [List.map_append] at hx
    rcases List.mem_append.1 hx with hx | hx
    · exact (h.ids x hx).trans_le hn
    · rw [List.mem_singleton.1 hx]
      exact hext

omit [ColumnIndex ι] [Distance δ] in
theorem getElem?_length_append (es : List Entry) (e : Entry) :
    (es ++ [e])[es.length]? = some e := by
  simp

theorem Inv.act_allocate (hJ : Column.Invariant E J anyWrite) (h : s.Inv J config es)
    (ho : s.Orderly K (.allocate ext)) (hb : E → ∀ call ∈ s.calls ext, call.BoolsOk)
    (hfit : E → (s.act K (.allocate ext)).db.Fits) :
    ∃ es', (s.act K (.allocate ext)).Inv J config es' ∧
      (es' = es ∨ ∃ e : Entry, e.isLive = false ∧ es' = es ++ [e]) := by
  have hreturns := ho.returns
  dsimp only [System.act, perform, Refused] at hreturns hfit ⊢
  cases hc : s.calls ext with
  | none => exact ⟨es, h, .inl rfl⟩
  | some call =>
    have hcall := h.calls ext call hc
    rw [hc] at hreturns hfit hb
    cases call with
    | insertLinking vec rec iid pc => exact ⟨es, h, .inl rfl⟩
    | updateLinking vec rec old iid pc => exact ⟨es, h, .inl rfl⟩
    | inserting vec rec =>
      dsimp only at hreturns hfit ⊢
      cases ha : s.db.insertAllocate K ext vec rec with
      | error e db =>
        rw [ha] at hreturns
        -- the index has refused the vector: the call is over, and nothing has changed
        obtain ⟨call', hcall', vec', hvec, hrefused⟩ := hreturns.resolve_left id
        obtain rfl := Option.some.inj hcall'
        obtain rfl := Option.some.inj hvec
        obtain ⟨e', he'⟩ := allocateNode_refused ext hrefused
        rw [VDB.insertAllocate, he'] at ha
        cases ha
        exact ⟨es, h.ended ext _ h.handedOut, .inl rfl⟩
      | ok iid db =>
        rw [ha] at hfit
        obtain ⟨rfl, hholds, hnext⟩ := h.holds.insertAllocate hJ (fun hE => hb hE _ rfl) ha hfit
        -- the next id stays ahead of the one that is inserted
        obtain ⟨hlt, hle⟩ := lt_keepAhead s.db hcall.2
        rw [← hnext] at hlt hle
        obtain ⟨hrows, hlives, hids⟩ := h.pushed vec
          (VDB.isLive_ofRecord config.schema.length rec) hle hlt
        refine ⟨_, h.step ext hholds (fun x => calls_setCall _ ext _ x) (fun c hc => ?_)
          hrows hlives (grows_insertAllocate h.holds.sound ha) hids fun x hx => ?_,
          .inr ⟨Entry.mk ext vec _, VDB.isLive_ofRecord config.schema.length rec, rfl⟩⟩
        · obtain rfl := Option.some.inj ((calls_setCall_self ..).symm.trans hc)
          refine ⟨?_, fun i hi => ?_, Index.pcValid_start _⟩
          · change _ = some (Entry.mk ext vec (.ofRecord db.config.schema.length rec))
            rw [hholds.configured]
            exact getElem?_length_append _ _
          · exact hcall.1 i ((VDB.lives_append ext i (e := Entry.mk ext vec _)
              (VDB.isLive_ofRecord config.schema.length rec)).1 hi)
        · rcases List.mem_append.1 hx with hx | hx
          · exact (h.handedOut x hx).trans_le hle
          · rw [List.mem_singleton.1 hx]
            exact hlt
    | updating vec rec =>
      dsimp only at hreturns hfit ⊢
      cases ha : s.db.updateAllocate K ext vec rec with
      | error e db =>
        rw [ha] at hreturns
        obtain ⟨call', hcall', vec', hvec, hrefused⟩ := hreturns.resolve_left id
        obtain rfl := Option.some.inj hcall'
        obtain rfl := Option.some.inj hvec
        obtain ⟨e', he'⟩ := allocateNode_refused ext hrefused
        rw [VDB.updateAllocate] at ha
        cases hx : s.db.extToInt ext with
        | none =>
          rw [hx] at ha
          cases ha
        | some old =>
          rw [hx] at ha
          dsimp only at ha
          rw [he'] at ha
          cases ha
          exact ⟨es, h.ended ext _ h.handedOut, .inl rfl⟩
      | ok nodes db =>
        rw [ha] at hfit
        rcases h.holds.updateAllocate hJ (fun hE => hb hE _ rfl) ha hfit with
          ⟨rfl, rfl, -⟩ | ⟨old, o, rfl, hold, hlive, hext, hholds, hnext⟩
        · exact ⟨es, h.ended ext _ h.handedOut, .inl rfl⟩
        · have hlt : ext < s.db.nextExtId :=
            hext ▸ h.ids o.ext (List.mem_map_of_mem (List.mem_of_getElem? hold))
          have hrow := VDB.isLive_replacement config.schema.length o rec
          obtain ⟨hrows, hlives, hids⟩ := h.pushed vec hrow le_rfl hlt
          rw [← hnext] at hids
          refine ⟨_, h.step ext hholds (fun x => calls_setCall _ ext _ x) (fun c hc => ?_)
            hrows hlives (grows_updateAllocate h.holds.sound ha) hids fun x hx => ?_,
            .inr ⟨Entry.mk ext vec _, hrow, rfl⟩⟩
          · obtain rfl := Option.some.inj ((calls_setCall_self ..).symm.trans hc)
            refine ⟨o, rows_append old o hold, hlive, hext, ?_, Index.pcValid_start _⟩
            change _ = some (Entry.mk ext vec (replacement db.config.schema.length o rec))
            rw [hholds.configured]
            exact getElem?_length_append _ _
          · exact (h.handedOut x hx).trans_le hnext.ge

omit [ColumnIndex ι] in
/-- A section of a link changes nothing but the index. -/
theorem holds_linkSection (h : db.Holds J config es) {iid : InternalId} {pc : Pc δ}
    (hi : iid < es.length) (hpc : db.index.PcValid iid pc) :
    (db.withIndex (db.index.linkSection K db.config.metric iid pc).1).Holds J config es :=
  { h with
    kind := (Index.size_linkSection iid pc).2.trans h.kind
    sound := (h.sound.linkSection K _ (h.size.symm ▸ hi) hpc).1
    size := (Index.size_linkSection iid pc).1.trans h.size }

theorem Inv.act_link (h : s.Inv J config es) : (s.act K (.link ext)).Inv J config es := by
  dsimp only [System.act, perform]
  cases hc : s.calls ext with
  | none => exact h
  | some call =>
    have hcall := h.calls ext call hc
    cases call with
    | inserting vec rec => exact h
    | updating vec rec => exact h
    | insertLinking vec rec iid pc =>
      obtain ⟨hi, hnone, hpc⟩ := hcall
      have hlt := (List.getElem?_eq_some_iff.1 hi).1
      obtain ⟨-, hpc', hgrows⟩ := h.holds.sound.linkSection K s.db.config.metric
        (h.holds.size.symm ▸ hlt) hpc
      refine h.same ext (holds_linkSection h.holds hlt hpc)
        (fun x => calls_setCall _ ext _ x) (fun c hc => ?_) hgrows le_rfl h.handedOut
      obtain rfl := Option.some.inj ((calls_setCall_self ..).symm.trans hc)
      exact ⟨hi, hnone, hpc'⟩
    | updateLinking vec rec old iid pc =>
      obtain ⟨o, hold, hlive, hext, hi, hpc⟩ := hcall
      have hlt := (List.getElem?_eq_some_iff.1 hi).1
      obtain ⟨-, hpc', hgrows⟩ := h.holds.sound.linkSection K s.db.config.metric
        (h.holds.size.symm ▸ hlt) hpc
      refine h.same ext (holds_linkSection h.holds hlt hpc)
        (fun x => calls_setCall _ ext _ x) (fun c hc => ?_) hgrows le_rfl h.handedOut
      obtain rfl := Option.some.inj ((calls_setCall_self ..).symm.trans hc)
      exact ⟨o, hold, hlive, hext, hi, hpc'⟩

omit [ColumnIndex ι] [Distance δ] in
theorem Inv.ids_modify (h : s.Inv J config es) (i : InternalId) (upd : Entry → Entry)
    (hupd : ∀ e, (upd e).ext = e.ext) {n : ℕ} (hn : n = s.db.nextExtId) :
    ∀ x ∈ (es.modify i upd).map Entry.ext, x < n := by
  rw [VDB.map_modify_of_eq Entry.ext hupd, hn]
  exact h.ids

omit [ColumnIndex ι] [Distance δ] in
/-- An action that changes one row with the id `ext`, and ends what call there is on it. -/
theorem Inv.modified (h : s.Inv J config es) (upd : Entry → Entry) (hi : es[i]? = some e)
    (hext : e.ext = ext) (hupd : ∀ e, (upd e).ext = e.ext)
    (hholds : s'.db.Holds J config (es.modify i upd)) (hindex : s'.db.index = s.db.index)
    (hnext : s'.db.nextExtId = s.db.nextExtId) (hcalls : ∀ x, x ≠ ext → s'.calls x = s.calls x)
    (hself : s'.calls ext = none) (hout : s'.handedOut = s.handedOut) :
    s'.Inv J config (es.modify i upd) := by
  refine h.step ext hholds hcalls (fun c hc => ?_) (rows_modify hi hext)
    (lives_of_modify hi hext (hupd e)) (hindex.symm ▸ grows_refl _) (h.ids_modify i upd hupd hnext)
    fun x hx => ?_
  · rw [hself] at hc
    cases hc
  · rw [hnext]
    exact h.handedOut x (hout ▸ hx)

theorem Inv.publish_insert (hJ : Column.Invariant E J anyWrite) (h : s.Inv J config es)
    (ho : s.Orderly K (.publish ext)) {vec : Vec} {rec : Record} {iid : InternalId}
    (hc : s.calls ext = some (.insertLinking vec rec iid .done)) :
    (s.act K (.publish ext)).Inv J config (es.modify iid (Entry.withStatus .live)) := by
  obtain ⟨hi, hnone, -⟩ := h.calls ext _ hc
  have hreturns := ho.returns.resolve_right id
  dsimp only [System.act, perform] at hreturns ⊢
  rw [hc] at hreturns ⊢
  dsimp only at hreturns ⊢
  cases hp : s.db.insertPublish ext iid with
  | error e db =>
    rw [hp] at hreturns
    exact hreturns.elim
  | ok _ db =>
    obtain ⟨hholds, hnext⟩ := h.holds.insertPublish hJ hi rfl rfl hnone hp
    exact h.modified (Entry.withStatus .live) hi rfl (fun _ => rfl) hholds
      (index_insertPublish hp) hnext (fun x => calls_setCall _ ext _ x) (calls_setCall_self ..) rfl

theorem Inv.publish_update (hJ : Column.Invariant E J anyWrite) (h : s.Inv J config es)
    (ho : s.Orderly K (.publish ext)) {vec : Vec} {rec : Option Record} {old iid : InternalId}
    (hc : s.calls ext = some (.updateLinking vec rec old iid .done)) :
    (s.act K (.publish ext)).Inv J config
      ((es.modify iid (Entry.withStatus .live)).modify old (Entry.withStatus .dead)) := by
  obtain ⟨o, hold, holive, hoext, hi, -⟩ := h.calls ext _ hc
  have hlive := VDB.isLive_replacement s.db.config.schema.length o rec
  have hreturns := ho.returns.resolve_right id
  dsimp only [System.act, perform] at hreturns ⊢
  rw [hc] at hreturns ⊢
  dsimp only at hreturns ⊢
  cases hp : s.db.updatePublish ext old iid with
  | error e db =>
    rw [hp] at hreturns
    exact hreturns.elim
  | ok _ db =>
    obtain ⟨hholds, hnext⟩ := h.holds.updatePublish hJ hi hlive rfl hold holive hoext hp
    have hne : iid ≠ old := VDB.ne_of_live hi hlive hold holive
    have hold₁ : (es.modify iid (Entry.withStatus .live))[old]? = some o :=
      (VDB.getElem?_modify_ne hne).trans hold
    refine h.step ext hholds (fun x => calls_setCall _ ext _ x) (fun c hc => ?_)
      (fun j e hj he => rows_modify hold₁ hoext j e (rows_modify hi rfl j e hj he) he)
      (fun x j hx hj => lives_of_modify hi rfl rfl x j hx
        (lives_of_modify hold₁ hoext rfl x j hx hj))
      ((index_updatePublish hp).symm ▸ grows_refl _) ?_ fun x hx => ?_
    · have hself : none = some c := (calls_setCall_self _ ext none).symm.trans hc
      cases hself
    · rw [VDB.ext_withStatus]
      exact h.ids_modify iid (Entry.withStatus .live) (fun _ => rfl) hnext
    · exact (h.handedOut x hx).trans_le hnext.ge

theorem act_publish_of_not_linked (hc : ∀ call ∈ s.calls ext, ¬ call.Linked) :
    s.act K (.publish ext) = s := by
  dsimp only [System.act, perform]
  cases hx : s.calls ext with
  | none => rfl
  | some call =>
    have hlinked := hc call hx
    cases call with
    | insertLinking vec rec iid pc => cases pc <;> first | rfl | exact absurd trivial hlinked
    | updateLinking vec rec old iid pc => cases pc <;> first | rfl | exact absurd trivial hlinked
    | _ => rfl

theorem Inv.act_publish (hJ : Column.Invariant E J anyWrite) (h : s.Inv J config es)
    (ho : s.Orderly K (.publish ext)) : ∃ es', (s.act K (.publish ext)).Inv J config es' := by
  by_cases hlinked : ∀ call ∈ s.calls ext, ¬ call.Linked
  · rw [act_publish_of_not_linked hlinked]
    exact ⟨es, h⟩
  · obtain ⟨call, hc, hl⟩ : ∃ call ∈ s.calls ext, call.Linked := by
      by_contra hno
      exact hlinked fun call hc hl => hno ⟨call, hc, hl⟩
    cases call with
    | insertLinking vec rec iid pc =>
      cases pc with
      | done => exact ⟨_, h.publish_insert hJ ho hc⟩
      | _ => exact hl.elim
    | updateLinking vec rec old iid pc =>
      cases pc with
      | done => exact ⟨_, h.publish_update hJ ho hc⟩
      | _ => exact hl.elim
    | _ => exact hl.elim

theorem Inv.act_remove (hJ : Column.Invariant E J anyWrite) (h : s.Inv J config es)
    (ho : s.Orderly K (.remove ext)) : ∃ es', (s.act K (.remove ext)).Inv J config es' := by
  have hreturns := ho.returns.resolve_right id
  have hfree := ho.free ext rfl
  dsimp only [System.act, perform, whole] at hreturns ⊢
  cases hp : s.db.remove ext with
  | error e db =>
    rw [hp] at hreturns
    exact hreturns.elim
  | ok b db =>
    obtain ⟨hnext, ⟨-, rfl, -⟩ | ⟨i, -, ⟨e, hi, hlive, hext⟩, hholds⟩⟩ := h.holds.remove hJ hp
    · exact ⟨es, h⟩
    · exact ⟨_, h.modified (Entry.withStatus .dead) hi hext (fun _ => rfl) hholds
        (index_remove hp) hnext
        (fun _ _ => rfl) hfree rfl⟩

theorem Inv.act_setMetadata (hJ : Column.Invariant E J anyWrite) (h : s.Inv J config es)
    {rec : Record} (ho : s.Orderly K (.setMetadata ext rec)) (hb : E → rec.BoolsOk)
    (hfit : E → (s.act K (.setMetadata ext rec)).db.Fits) :
    ∃ es', (s.act K (.setMetadata ext rec)).Inv J config es' := by
  have hreturns := ho.returns
  have hfree := ho.free ext rfl
  dsimp only [System.act, perform, whole, Refused] at hreturns hfit ⊢
  cases hp : s.db.setMetadata ext rec with
  | error e db =>
    rw [hp] at hreturns
    have hrefused := hreturns.resolve_left id
    unfold VDB.setMetadata at hp
    cases hv : s.db.validate rec with
    | error e' =>
      rw [hv] at hp
      cases hp
      exact ⟨es, h⟩
    | ok _ => exact absurd hv hrefused
  | ok b db =>
    rw [hp] at hfit
    obtain ⟨hnext, ⟨-, rfl, -⟩ | ⟨i, -, ⟨e, hi, hlive, hext⟩, hholds⟩⟩ :=
      h.holds.setMetadata hJ hb (fun _ _ _ _ _ _ _ => trivial) hp hfit
    · exact ⟨es, h⟩
    · exact ⟨_, h.modified (Entry.withRecord config.schema.length rec) hi hext (fun _ => rfl) hholds
        (index_setMetadata hp) hnext (fun _ _ => rfl) hfree rfl⟩

theorem Inv.act_compact (hJ : Column.Invariant E J anyWrite) (h : s.Inv J config es)
    (ho : s.Orderly K .compact) (hq : s.Quiet .compact) :
    (s.act K .compact).Inv J config (es.filter Entry.isLive) := by
  have hreturns := ho.returns.resolve_right id
  dsimp only [System.act, perform, whole] at hreturns ⊢
  cases hp : s.db.compact K with
  | error e db =>
    rw [hp] at hreturns
    exact hreturns.elim
  | ok _ db =>
    obtain ⟨hholds, hnext⟩ := h.holds.compact hJ hp
    refine { holds := hholds, calls := fun x call hx => ?_, ids := fun x hx => ?_,
             handedOut := fun x hx => (h.handedOut x hx).trans_le hnext.ge }
    · have hcall := h.calls x call hx
      have hnode := hq rfl x call hx
      cases call with
      | inserting vec rec =>
        refine ⟨fun i ⟨e, hi, hlive, hext⟩ => ?_, hcall.2⟩
        obtain ⟨j, hj⟩ := List.getElem?_of_mem (List.mem_filter.1 (List.mem_of_getElem? hi)).1
        exact hcall.1 j ⟨e, hj, hlive, hext⟩
      | updating vec rec => trivial
      | insertLinking vec rec iid pc => cases hnode
      | updateLinking vec rec old iid pc => cases hnode
    · change x < db.nextExtId
      rw [hnext]
      obtain ⟨e, he, rfl⟩ := List.mem_map.1 hx
      exact h.ids _ (List.mem_map_of_mem (List.mem_filter.1 he).1)

end System

end Database

end Vdb
