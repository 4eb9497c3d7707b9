import Vdb.Database.Concurrent
import Vdb.Metadata.Index

/-!
# What holds between concurrent calls

* `System.consistent_run` : between any two phases of concurrent calls the identity maps, the
  arrays, the index and the counters agree, and an id being updated has one of its two nodes.
* `System.effective_run` : each insert and update that returns has taken effect for its own row and
  no other, as long as a compaction finds no pending node.
* `System.compacted_away` : a compaction drops a pending node, and the call publishes another row.
* `System.wrapped` : the next id does not stay ahead of the largest one.
-/

namespace Vdb

namespace Database

open Metadata
open Hnsw (Pc)
open VDB (Lives)

/-- The internal id is in range for all arrays and the index. -/
structure RowExists {ι : Type} (db : VDB ι) (i : InternalId) : Prop where
  intToExt : i < db.intToExt.length
  deleted : i < db.deleted.length
  vectors : i < db.vectors.length
  rows : i < db.metadata.rows
  index : i < db.index.size

namespace Call

variable {δ : Type}

/-- The internal ids the call uses are in range. -/
def InRange {ι : Type} (db : VDB ι) : Call δ → Prop
  | .insertLinking _ _ iid pc => RowExists db iid ∧ db.index.PcValid iid pc
  | .updateLinking _ _ old iid pc =>
    RowExists db old ∧ RowExists db iid ∧ db.index.PcValid iid pc
  | _ => True

/-- What the id of the call stands for after it has published its node: the vector and the record
it was given, or without a record the vector and what was there. -/
def effect (n : ℕ) (p : Option Point) : Call δ → Option Point
  | .insertLinking vec rec _ .done => some (.of n vec rec)
  | .updateLinking vec (some rec) _ _ .done => some (.of n vec rec)
  | .updateLinking vec none _ _ .done => p.map (Point.withVec vec)
  | _ => p

end Call

namespace System

variable {ι δ : Type} [ColumnIndex ι] [Distance δ] (K : Kernels δ) (s : System ι δ)
  {E : Prop} {J : ℕ → Column ι → List ColRow → Prop} {config : VDBConfig} {es : List Entry}
  {a : Action} {x : ExternalId}

omit [ColumnIndex ι] [Distance δ] in
/-- The records of the calls in flight have the Bool values `attr_bool` builds. -/
def Bools (s : System ι δ) : Prop := ∀ x call, s.calls x = some call → call.BoolsOk

variable {K s}

omit [ColumnIndex ι] [Distance δ] in
theorem Bools.setCall (h : s.Bools) (db : VDB ι) (out : List ExternalId) (ext : ExternalId)
    {call : Option (Call δ)} (hc : ∀ c ∈ call, c.BoolsOk) :
    ({ s with db, handedOut := out }.setCall ext call).Bools := by
  intro x c hx
  by_cases hne : x = ext
  · subst hne
    rw [calls_setCall_self] at hx
    exact hc c hx
  · rw [calls_setCall _ _ _ _ hne] at hx
    exact h x c hx

omit [ColumnIndex ι] [Distance δ] in
theorem Bools.phase (h : s.Bools) {α : Type} (ext : ExternalId) (o : Outcome (VDB ι) α)
    (next : α → Option (Call δ)) (hnext : ∀ a, ∀ c ∈ next a, c.BoolsOk) :
    (s.phase ext o next).state.Bools := by
  cases o with
  | ok a db => exact h.setCall db s.handedOut ext (hnext a)
  | error e db => exact h.setCall db s.handedOut ext (by simp)

theorem Bools.act (h : s.Bools) (hb : ∀ rec ∈ a.record, rec.BoolsOk) : (s.act K a).Bools := by
  have hbegin : ∀ (checked : Except Exn Unit) (ext : ExternalId) (call : Call δ), call.BoolsOk →
      (s.begin checked ext call).state.Bools := by
    intro checked ext call hcall
    cases checked with
    | error e => exact h
    | ok _ => exact h.setCall s.db s.handedOut ext (by simpa using hcall)
  have hwhole : ∀ {α : Type} (o : Outcome (VDB ι) α), (s.whole o).state.Bools := by
    intro α o
    cases o with
    | ok a db => exact h
    | error e db => exact h
  cases a with
  | insert vec rec =>
    dsimp only [System.act, perform]
    cases s.db.validate rec with
    | error e => exact h
    | ok _ =>
      refine h.setCall _ _ _ fun c hc => ?_
      cases hc
      exact hb rec rfl
  | insertReserved ext vec rec => exact hbegin _ ext _ (hb rec rfl)
  | update ext vec rec => exact hbegin _ ext _ hb
  | allocate ext =>
    dsimp only [System.act, perform]
    cases s.calls ext with
    | none => exact h
    | some call =>
      cases call with
      | inserting vec rec =>
        have hphase := h.phase ext (s.db.insertAllocate K ext vec rec)
          (fun iid => some (.insertLinking vec rec iid .start)) (by simp [Call.BoolsOk])
        dsimp only
        cases ho : s.phase ext (s.db.insertAllocate K ext vec rec)
            fun iid => some (.insertLinking vec rec iid .start) with
        | ok _ s' =>
          rw [ho] at hphase
          exact hphase
        | error e s' =>
          rw [ho] at hphase
          exact hphase
      | updating vec rec =>
        refine h.phase ext _ _ fun nodes c hc => ?_
        obtain ⟨n, -, rfl⟩ := Option.map_eq_some_iff.1 hc
        trivial
      | _ => exact h
  | link ext =>
    dsimp only [System.act, perform]
    cases s.calls ext with
    | none => exact h
    | some call =>
      cases call with
      | insertLinking vec rec iid pc => exact h.setCall _ s.handedOut ext (by simp [Call.BoolsOk])
      | updateLinking vec rec old iid pc =>
        exact h.setCall _ s.handedOut ext (by simp [Call.BoolsOk])
      | _ => exact h
  | publish ext =>
    dsimp only [System.act, perform]
    cases s.calls ext with
    | none => exact h
    | some call =>
      cases call with
      | insertLinking vec rec iid pc =>
        cases pc <;> first | exact h | exact h.phase ext _ _ (by simp)
      | updateLinking vec rec old iid pc =>
        cases pc <;> first | exact h | exact h.phase ext _ _ (by simp)
      | _ => exact h
  | remove ext => exact hwhole _
  | setMetadata ext rec => exact hwhole _
  | compact => exact hwhole _

/-- **One action** keeps the invariant. -/
theorem Inv.act (hJ : Column.Invariant E J anyWrite) (h : s.Inv J config es) (ho : s.Orderly K a)
    (hq : s.Quiet a) (hb : E → s.Bools) (he : E → s.Exact K a) :
    ∃ es', (s.act K a).Inv J config es' := by
  cases a with
  | insert vec rec => exact ⟨es, h.act_insert ho⟩
  | insertReserved ext vec rec => exact ⟨es, h.act_insertReserved ho⟩
  | update ext vec rec => exact ⟨es, h.act_update⟩
  | allocate ext =>
    obtain ⟨es', h', -⟩ :=
      h.act_allocate hJ ho (fun hE call hc => hb hE ext call hc) fun hE => (he hE).fits
    exact ⟨es', h'⟩
  | link ext => exact ⟨es, h.act_link⟩
  | publish ext => exact h.act_publish hJ ho
  | remove ext => exact h.act_remove hJ ho
  | setMetadata ext rec =>
    exact h.act_setMetadata hJ ho (fun hE => (he hE).bools rec rfl) fun hE => (he hE).fits
  | compact => exact ⟨_, h.act_compact hJ ho hq⟩

omit [Distance δ] in
theorem inv_new {db : VDB ι} (hnew : VDB.new config = .ok db)
    (hJ : ∀ a spec, config.schema[a]? = some spec → J a (Column.new spec) []) :
    ({ db } : System ι δ).Inv J config [] where
  holds := VDB.holds_new hnew hJ
  calls := by rintro x call ⟨⟩
  ids := by simp
  handedOut := by simp

/-! ### Consistency -/

/-- The arrays, the maps, the counters and the calls in flight agree. -/
structure Consistent (s : System ι δ) : Prop where
  deleted : s.db.deleted.length = s.db.intToExt.length
  vectors : s.db.vectors.length = s.db.intToExt.length
  index : s.db.index.size = s.db.intToExt.length
  rows : s.db.metadata.rows = s.db.intToExt.length
  payload : s.db.metadata.payload.length = s.db.intToExt.length
  columns : ∀ c ∈ s.db.metadata.columns, c.Sized s.db.intToExt.length
  /-- `ext_to_int_` is the inverse of `int_to_ext_` on the rows that are not deleted. -/
  map : ∀ x i, s.db.extToInt x = some i ↔ s.db.intToExt[i]? = some x ∧ s.db.deleted[i]? = some false
  liveCount : s.db.liveCount = s.db.deleted.count false
  deletedCount : s.db.deletedCount = s.db.deleted.count true
  /-- An id being updated is live with its old node, and the new one is pending. -/
  updating : ∀ x vec rec old iid pc, s.calls x = some (.updateLinking vec rec old iid pc) →
    s.db.extToInt x = some old ∧ s.db.intToExt[iid]? = some x ∧ s.db.deleted[iid]? = some true
  handedOut : ∀ x ∈ s.handedOut, x < s.db.nextExtId
  inserted : ∀ x ∈ s.db.intToExt, x < s.db.nextExtId

variable (K s) in
/-- The id being updated goes over from its old node to its new one. -/
def Switches (x : ExternalId) : Prop :=
  ∀ vec rec old iid, s.calls x = some (.updateLinking vec rec old iid .done) →
    let db := (s.act K (.publish x)).db
    db.extToInt x = some iid ∧ db.deleted[iid]? = some false ∧ db.deleted[old]? = some true

omit [ColumnIndex ι] [Distance δ] in
theorem Inv.consistent (h : s.Inv (fun _ c rows => c.Sized rows.length) config es) :
    s.Consistent := by
  have hids := h.holds.ids
  have hlen : s.db.intToExt.length = es.length := by rw [hids, List.length_map]
  have hdeleted : ∀ (i : ℕ) (e : Entry), es[i]? = some e → s.db.deleted[i]? = some !e.isLive := by
    intro i e hi
    rw [h.holds.deleted, List.getElem?_map, hi]
    rfl
  have hget : ∀ (i : ℕ) (e : Entry), es[i]? = some e → s.db.intToExt[i]? = some e.ext := by
    intro i e hi
    rw [hids, List.getElem?_map, hi]
    rfl
  exact
  { deleted := by rw [hlen, h.holds.deleted, List.length_map]
    vectors := by rw [hlen, h.holds.vectors, List.length_map]
    index := by rw [hlen, h.holds.size]
    rows := by rw [hlen, h.holds.metadata.rowCount, List.length_map]
    payload := by rw [hlen, h.holds.metadata.payload, List.length_map, List.length_map]
    columns := fun c hc => by
      obtain ⟨a, ha⟩ := List.getElem?_of_mem hc
      have := h.holds.metadata.column a c ha
      rwa [List.length_map, List.length_map, ← hlen] at this
    map := fun x i => by
      rw [h.holds.map]
      constructor
      · rintro ⟨e, hi, hlive, rfl⟩
        exact ⟨hget i e hi, by rw [hdeleted i e hi, hlive]; rfl⟩
      · rintro ⟨hx, hd⟩
        obtain ⟨e, hi⟩ : ∃ e, es[i]? = some e :=
          ⟨_, List.getElem?_eq_getElem (hlen ▸ (List.getElem?_eq_some_iff.1 hx).1)⟩
        rw [hget i e hi] at hx
        rw [hdeleted i e hi] at hd
        exact ⟨e, hi, by simpa using hd, Option.some.inj hx⟩
    liveCount := by
      rw [h.holds.liveCount, h.holds.deleted, List.count_eq_countP, List.countP_map]
      exact List.countP_congr fun e _ => by simp
    deletedCount := by
      rw [h.holds.deletedCount, h.holds.deleted, List.count_eq_countP, List.countP_map]
      exact List.countP_congr fun e _ => by simp
    updating := fun x vec rec old iid pc hc => by
      -- the old row of an update stays live until the new one is published
      obtain ⟨o, hold, hlive, hext, hi, -⟩ := h.calls x _ hc
      have hpending := VDB.isLive_replacement s.db.config.schema.length o rec
      refine ⟨(h.holds.map x old).2 ⟨o, hold, hlive, hext⟩, hget iid _ hi, ?_⟩
      rw [hdeleted iid _ hi]
      exact congrArg (fun b => some !b) hpending
    handedOut := h.handedOut
    inserted := fun x hx => h.ids x (hids ▸ hx) }

theorem Inv.switches (hJ : Column.Invariant E J anyWrite) (h : s.Inv J config es)
    (ho : s.Orderly K (.publish x)) : s.Switches K x := by
  intro vec rec old iid hc
  obtain ⟨o, hold, holive, hoext, hi, -⟩ := h.calls x _ hc
  have hlive := VDB.isLive_replacement s.db.config.schema.length o rec
  have hreturns := ho.returns.resolve_right id
  dsimp only [System.act, perform] at hreturns ⊢
  rw [hc] at hreturns ⊢
  dsimp only at hreturns ⊢
  cases hp : s.db.updatePublish x old iid with
  | error e db =>
    rw [hp] at hreturns
    exact hreturns.elim
  | ok _ db =>
    obtain ⟨hholds, -⟩ := h.holds.updatePublish hJ hi hlive rfl hold holive hoext hp
    have hne : iid ≠ old := VDB.ne_of_live hi hlive hold holive
    have hold₁ : (es.modify iid (Entry.withStatus .live))[old]? = some o :=
      (VDB.getElem?_modify_ne hne).trans hold
    have hnew :
      ((es.modify iid (Entry.withStatus .live)).modify old (Entry.withStatus .dead))[iid]? =
        some (Entry.withStatus .live ⟨x, vec, _⟩) :=
      (VDB.getElem?_modify_ne (Ne.symm hne)).trans (VDB.getElem?_modify_self hi)
    change db.extToInt x = some iid ∧ db.deleted[iid]? = some false ∧ db.deleted[old]? = some true
    refine ⟨(hholds.map x iid).2 ⟨_, hnew, rfl, rfl⟩, ?_, ?_⟩
    · rw [hholds.deleted, List.getElem?_map, hnew]
      rfl
    · rw [hholds.deleted, List.getElem?_map, VDB.getElem?_modify_self hold₁]
      rfl

/-- **Between any two phases** of concurrent calls everything agrees, and an update that is
published next goes over to its new node. -/
theorem consistent_run {db : VDB ι} (hnew : VDB.new config = .ok db) (acts : List Action)
    (h : Run.Along (act K) (fun s a => s.Orderly K a ∧ a ≠ .compact) { db } acts) :
    (acts.foldl (act K) { db }).Consistent ∧
      ∀ x, (acts.foldl (act K) { db }).Orderly K (.publish x) →
        (acts.foldl (act K) { db }).Switches K x := by
  have hJ := Column.invariant_sized (ι := ι)
  have hinv := Run.Along.invariant
    (I := fun s : System ι δ => ∃ es, s.Inv (fun _ c rows => c.Sized rows.length) config es)
    (fun s a ⟨es, hs⟩ ⟨ho, hne⟩ => hs.act hJ ho (fun he => absurd he hne) False.elim False.elim)
    ⟨[], inv_new hnew fun _ spec _ => Column.sized_new spec⟩ h
  obtain ⟨es, hs⟩ := hinv
  exact ⟨hs.consistent, fun x ho => hs.switches hJ ho⟩

/-! ### A small database -/

/-- Kernels for which all vectors are at one place. -/
def onePlace : Kernels ℕ where
  dist _ _ _ := 0
  maxDist := 1
  centroids _ _ _ := []
  level _ := 0
  level_lt _ := by decide

/-- A Brute index, and no attributes. -/
def smallConfig : VDBConfig := { kind := .brute, dim := 1 }

/-- An empty database. -/
def small : System PairIndex ℕ where
  db := {
    config := smallConfig, index := .brute { dim := 1 }
    metadata := {
      schema := [], columns := [], payload := [], rows := 0,
        fingerprint := computeFingerprint [] } }

theorem new_small : VDB.new smallConfig = Except.ok (ε := Exn) small.db := rfl

/-- Two inserts, and an update while the second one has its node pending. -/
def twoInserts : List Action :=
  [.insert [1] {}, .allocate 0, .link 0, .publish 0, .insert [2] {}, .allocate 1,
    .update 0 [3] none, .allocate 0, .link 0, .link 1, .remove 7, .publish 1]

theorem consistent_twoInserts :
    (twoInserts.foldl (act (ι := PairIndex) onePlace) small).Consistent ∧
      ∀ x, (twoInserts.foldl (act (ι := PairIndex) onePlace) small).Orderly onePlace (.publish x) →
        (twoInserts.foldl (act (ι := PairIndex) onePlace) small).Switches onePlace x :=
  consistent_run new_small twoInserts (by decide +kernel)

/-- An insert under the largest id, with all calls on distinct ids that are not live. -/
theorem wrapped :
    let acts : List Action := [.insertReserved (2 ^ 64 - 1) [1] {}, .allocate (2 ^ 64 - 1)]
    Run.Along (act (ι := PairIndex) onePlace) (fun s a => (∀ x ∈ s.target a, s.calls x = none ∧
        s.db.extToInt x = none) ∧ (s.perform onePlace a).Returns ∧ a ≠ .compact) small acts ∧
      ¬ (acts.foldl (act (ι := PairIndex) onePlace) small).Consistent := by
  refine ⟨by decide +kernel, fun h => ?_⟩
  exact absurd (h.handedOut (2 ^ 64 - 1) (by decide +kernel)) (by decide +kernel)

/-! ### Effects -/

variable (K s) in
/-- Every internal id the action uses is in range, and what a link holds are nodes of the graph. -/
def InRange : Action → Prop
  | .allocate x => ∀ old ∈ s.db.extToInt x, RowExists s.db old
  | .link x => ∀ call ∈ s.calls x, call.InRange s.db
  | .publish x => ∀ call ∈ s.calls x, call.InRange s.db
  | _ => True

variable (K s) in
/-- A phase of a call changes what its own id stands for, and that only when the call returns; a
compaction changes nothing. -/
def Effective : Action → Prop
  | .publish x => ∀ call ∈ s.calls x,
    (s.act K (.publish x)).db.logical =
      Function.update s.db.logical x (call.effect s.db.config.schema.length (s.db.logical x)) ∧
    (call.Linked → (s.act K (.publish x)).db.contains x = true)
  | .allocate x => (s.act K (.allocate x)).db.logical = s.db.logical
  | .link x => (s.act K (.link x)).db.logical = s.db.logical
  | .compact => (s.act K .compact).db.logical = s.db.logical
  | _ => True

omit [ColumnIndex ι] [Distance δ] in
theorem rowExists {db : VDB ι} (h : db.Holds J config es) {i : InternalId} {e : Entry}
    (hi : es[i]? = some e) : RowExists db i := by
  have hlt := (List.getElem?_eq_some_iff.1 hi).1
  constructor
  · rwa [h.ids, List.length_map]
  · rwa [h.deleted, List.length_map]
  · rwa [h.vectors, List.length_map]
  · rwa [h.metadata.rowCount, List.length_map]
  · rwa [h.size]

omit [ColumnIndex ι] [Distance δ] in
theorem Inv.inRange (h : s.Inv J config es) (a : Action) : s.InRange a := by
  have hcall : ∀ x, ∀ call ∈ s.calls x, call.InRange s.db := by
    intro x call hc
    have hok := h.calls x call hc
    cases call with
    | insertLinking vec rec iid pc => exact ⟨rowExists h.holds hok.1, hok.2.2⟩
    | updateLinking vec rec old iid pc =>
      obtain ⟨o, hold, -, -, hi, hpc⟩ := hok
      exact ⟨rowExists h.holds hold, rowExists h.holds hi, hpc⟩
    | _ => trivial
  cases a with
  | allocate x =>
    intro old hx
    obtain ⟨e, hi, -⟩ := (h.holds.map x old).1 hx
    exact rowExists h.holds hi
  | link x => exact hcall x
  | publish x => exact hcall x
  | _ => trivial

/-- **One action** has the effect of its call, and no other. -/
theorem Inv.effective (hJ : Column.Invariant True J anyWrite) (h : s.Inv J config es)
    (ho : s.Orderly K a) (hq : s.Quiet a) (hb : s.Bools) (he : s.Exact K a) : s.Effective K a := by
  have hok : ∀ a c rows, J a c rows → c.Ok rows := fun _ _ _ => hJ.ok trivial
  cases a with
  | allocate x =>
    obtain ⟨es', h', rfl | ⟨e, hdead, rfl⟩⟩ :=
      h.act_allocate hJ ho (fun _ call hc => hb x call hc) fun _ => he.fits
    · exact h.holds.logical_same h'.holds hok
    · exact h.holds.logical_append h'.holds hok hdead
  | link x => exact h.holds.logical_same h.act_link.holds hok
  | compact => exact h.holds.logical_compact (h.act_compact hJ ho hq).holds hok
  | publish x =>
    intro call hc
    -- a publication takes effect only when the links of its node are done
    by_cases hlinked : call.Linked
    · have hcontains : ∀ p : Point,
          (s.act K (.publish x)).db.logical = Function.update s.db.logical x (some p) →
          (s.act K (.publish x)).db.contains x = true := by
        intro p hp
        have hx := congrFun hp x
        rw [Function.update_self] at hx
        obtain ⟨i, hi, -⟩ := Option.map_eq_some_iff.1 hx
        exact Option.isSome_iff_exists.2 ⟨i, hi⟩
      have hok' := h.calls x call hc
      cases call with
      | insertLinking vec rec iid pc =>
        cases pc with
        | done =>
          obtain ⟨hi, hnone, -⟩ := hok'
          have heff := h.holds.logical_publish (h.publish_insert hJ ho hc).holds hok hi rfl hnone
          exact ⟨heff, fun _ => hcontains _ heff⟩
        | _ => exact hlinked.elim
      | updateLinking vec rec old iid pc =>
        cases pc with
        | done =>
          obtain ⟨o, hold, holive, hoext, hi, -⟩ := hok'
          have hlive := VDB.isLive_replacement s.db.config.schema.length o rec
          have heff := h.holds.logical_replace (h.publish_update hJ ho hc).holds hok hi rfl
            (VDB.ne_of_live hi hlive hold holive) hold holive hoext
          refine ⟨?_, fun _ => hcontains _ heff⟩
          rw [heff, h.holds.logical_some hok hold holive hoext]
          cases rec <;> rfl
        | _ => exact hlinked.elim
      | _ => exact hlinked.elim
    · have hsame : s.act K (.publish x) = s := act_publish_of_not_linked fun c hc' => by
        rwa [Option.some.inj (hc'.symm.trans hc)]
      have heffect : call.effect s.db.config.schema.length (s.db.logical x) = s.db.logical x := by
        cases call with
        | insertLinking vec rec iid pc => cases pc <;> first | rfl | exact absurd trivial hlinked
        | updateLinking vec rec old iid pc =>
          cases rec <;> cases pc <;> first | rfl | exact absurd trivial hlinked
        | _ => rfl
      rw [hsame, heffect, Function.update_eq_self]
      exact ⟨rfl, fun hl => absurd hl hlinked⟩
  | _ => trivial

/-- **Every insert and update takes effect** for its own row and no other, in every run in which
compactions find no pending node. -/
theorem effective_run {db : VDB ι} (hnew : VDB.new config = .ok db) (acts : List Action)
    (h : Run.Along (act K) (fun s a => s.Orderly K a ∧ s.Exact K a ∧ s.Quiet a) { db } acts) :
    Run.Along (act K) (fun s a => s.InRange a ∧ s.Effective K a) { db } acts := by
  have hJ := Column.invariant_ok (ι := ι)
  have hstart : (∃ es, ({ db } : System ι δ).Inv (fun _ c rows => c.Ok rows) config es) ∧
      ({ db } : System ι δ).Bools :=
    ⟨⟨[], inv_new hnew fun _ spec _ => Column.ok_new spec⟩, by rintro x call ⟨⟩⟩
  refine Run.Along.always
    (I := fun s : System ι δ => (∃ es, s.Inv (fun _ c rows => c.Ok rows) config es) ∧ s.Bools)
    ?_ ?_ hstart h
  · rintro s a ⟨⟨es, hs⟩, hb⟩ ⟨ho, he, hq⟩
    exact ⟨hs.act hJ ho hq (fun _ => hb) fun _ => he, hb.act he.bools⟩
  · rintro s a ⟨⟨es, hs⟩, hb⟩ ⟨ho, he, hq⟩
    exact ⟨hs.inRange a, hs.effective hJ ho hq hb he⟩

/-- An insert is compacted around before it allocates its node. -/
theorem effective_reserved : Run.Along (act (ι := PairIndex) onePlace)
    (fun s a => s.InRange a ∧ s.Effective onePlace a) small
    [.insert [1] {}, .compact, .allocate 0, .link 0, .publish 0] := by
  refine effective_run new_small _ ⟨⟨by decide +kernel, by decide +kernel, nofun⟩,
    ⟨by decide +kernel, by decide +kernel, fun _ x call hc => ?_⟩,
    ⟨by decide +kernel, by decide +kernel, nofun⟩, ⟨by decide +kernel, by decide +kernel, nofun⟩,
    ⟨by decide +kernel, by decide +kernel, nofun⟩, trivial⟩
  have hcalls : Function.update (fun _ => none) 0 (some (.inserting [1] {})) x = some call := hc
  by_cases hx : x = 0
  · subst hx
    cases hcalls
    rfl
  · rw [Function.update_of_ne hx] at hcalls
    cases hcalls

/-- The first insert has its node pending when a compaction drops it; a second one gets the same
internal id. -/
def dropped : List Action :=
  [.insert [1] {}, .allocate 0, .compact, .insert [2] {}, .allocate 1, .link 1, .publish 1, .link 0]

/-- A compaction drops a pending node, and the call on it publishes the row of another id. -/
theorem compacted_away :
    let acts : List Action := dropped ++ [.publish 0]
    Run.Along (act (ι := PairIndex) onePlace) (fun s a => s.Orderly onePlace a ∧ s.Exact onePlace a)
        small acts ∧
      (acts.foldl (act (ι := PairIndex) onePlace) small).db.logical 0 = some ⟨[2], [], []⟩ ∧
      ¬ Run.Along (act (ι := PairIndex) onePlace) (fun s a => s.InRange a ∧ s.Effective onePlace a)
        small acts := by
  refine ⟨by decide +kernel, by decide +kernel, fun h => ?_⟩
  obtain ⟨-, ⟨-, heffective⟩, -⟩ := Run.Along.append.1 h
  have heffect := congrFun (heffective (.insertLinking [1] {} 0 .done) (by rfl)).1 0
  rw [Function.update_self] at heffect
  revert heffect
  decide +kernel

end System

end Database

end Vdb
