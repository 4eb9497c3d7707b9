import Vdb.Database.Arrays
import Vdb.Database.Follows
import Vdb.Database.Logical
import Mathlib.Data.Finset.Card

/-!
# A database as a map

What the operations are for: a map from external ids to points, and the ids that have been given
out.  `Contents.Step` says what each operation answers from the map and makes of it.

* `VDB.refines_run` : calls one after the other on a `VDB` do just that, as long as there is room.
* `VDB.minted_again` : an id is given out twice once the counter of the ids has come to its end.
-/

namespace Vdb

namespace Database

open Metadata

structure Contents where
  points : Logical := fun _ => none
  /-- The ids that were given out, or inserted under by the caller's choice. -/
  minted : List ExternalId := []

/-- The point after an update, with a record or without one. -/
def Point.updated (n : ℕ) (vec : Vec) : Option Record → Point → Point
  | some rec, _ => .of n vec rec
  | none, p => p.withVec vec

namespace Contents

/-- What stands under one id from now on. -/
def put (s : Contents) (x : ExternalId) (p : Option Point) : Contents :=
  { s with points := Function.update s.points x p }

/-- Give out an id. -/
def mint (s : Contents) (x : ExternalId) : Contents := { s with minted := x :: s.minted }

/-- What a call answers and does; a call that throws has no answer. -/
inductive Step (schema : List AttrSpec) : Contents → Op → Option Reply → Contents → Prop
  | rejected {s : Contents} {op : Op} {rec : Record} : op.record = some rec →
      validate schema rec ≠ .ok () → Step schema s op none s
  | insert {s : Contents} {vec : Vec} {rec : Record} {x : ExternalId} :
      validate schema rec = .ok () → x ∉ s.minted →
      Step schema s (.insert vec rec) (some (.id x))
        ((s.mint x).put x (some (.of schema.length vec rec)))
  | insertReserved {s : Contents} {vec : Vec} {rec : Record} {x : ExternalId} :
      validate schema rec = .ok () → s.points x = none →
      Step schema s (.insertReserved x vec rec) (some .done)
        ((s.mint x).put x (some (.of schema.length vec rec)))
  | remove {s : Contents} {x : ExternalId} :
      Step schema s (.remove x) (some (.found (s.points x).isSome)) (s.put x none)
  | update {s : Contents} {x : ExternalId} {vec : Vec} {rec : Option Record} :
      (∀ r ∈ rec, validate schema r = .ok ()) →
      Step schema s (.update x vec rec) (some (.found (s.points x).isSome))
        (s.put x ((s.points x).map (Point.updated schema.length vec rec)))
  | setMetadata {s : Contents} {x : ExternalId} {rec : Record} :
      validate schema rec = .ok () →
      Step schema s (.setMetadata x rec) (some (.found (s.points x).isSome))
        (s.put x ((s.points x).map (Point.withRecord schema.length rec)))
  | compact {s : Contents} : Step schema s .compact (some .done) s

/-- Every point stands under an id that was given out. -/
def Minted (s : Contents) : Prop := ∀ x p, s.points x = some p → x ∈ s.minted

variable {s : Contents} {x : ExternalId}

theorem Minted.mint (h : s.Minted) : (s.mint x).Minted :=
  fun y p hp => List.mem_cons_of_mem x (h y p hp)

theorem Minted.put {p : Option Point} (h : s.Minted) (hx : p.isSome → x ∈ s.minted) :
    (s.put x p).Minted := by
  intro y q hq
  change Function.update s.points x p y = some q at hq
  rw [Function.update_apply] at hq
  split_ifs at hq with hy
  · exact hy ▸ hx (by rw [hq]; rfl)
  · exact h y q hq

/-- A point that is changed stood under an id that was given out. -/
theorem Minted.change (h : s.Minted) (f : Point → Point) :
    (s.put x ((s.points x).map f)).Minted := by
  refine h.put fun hx => ?_
  rw [Option.isSome_map] at hx
  obtain ⟨p, hp⟩ := Option.isSome_iff_exists.1 hx
  exact h x p hp

end Contents

namespace Index

variable {δ : Type} [Distance δ] {K : Kernels δ} {metric : Metric}

theorem allocate_throwsOnly (x : Index) (vec : Vec) :
    (x.allocate K metric vec).ThrowsOnly Exn.OutOfRoom := by
  cases x with
  | brute x => trivial
  | ivf x =>
    refine Outcome.ThrowsOnly.mapState ?_ _
    unfold IVFIndex.add
    split_ifs
    · trivial
    · trivial
  | hnsw x =>
    refine Outcome.ThrowsOnly.mapState ?_ _
    unfold HNSWState.allocate
    split
    · trivial
    · trivial

end Index

namespace VDB

variable {ι δ : Type} [ColumnIndex ι] [Distance δ] {K : Kernels δ} {config : VDBConfig}
  {db db' db₀ : VDB ι} {es : List Entry} {ext : ExternalId} {iid old : InternalId} {vec : Vec}
  {rec : Record} {op : Op} {s : Contents}

/-! ### What a call throws -/

omit [ColumnIndex ι] in
theorem allocateNode_throwsOnly (db : VDB ι) (ext : ExternalId) (vec : Vec) :
    (db.allocateNode K ext vec).ThrowsOnly Exn.OutOfRoom := by
  have hindex : (db.index.allocate K db.config.metric vec).ThrowsOnly Exn.OutOfRoom :=
    db.index.allocate_throwsOnly vec
  unfold allocateNode
  cases ha : db.index.allocate K db.config.metric vec with
  | error e index =>
    rw [ha] at hindex
    exact hindex
  | ok iid index =>
    dsimp only
    split_ifs
    · trivial
    · trivial

omit [ColumnIndex ι] in
theorem appendAll_throwsOnly (rows : List (ExternalId × Vec)) (db : VDB ι) :
    (appendAll K rows db).ThrowsOnly Exn.OutOfRoom := by
  induction rows generalizing db with
  | nil => trivial
  | cons r rows ih =>
    obtain ⟨ext, vec⟩ := r
    refine Outcome.ThrowsOnly.andThen ?_ fun _ _ _ => ih _
    have hindex : (db.index.allocate K db.config.metric vec).ThrowsOnly Exn.OutOfRoom :=
      db.index.allocate_throwsOnly vec
    unfold VDB.append Index.add
    cases ha : db.index.allocate K db.config.metric vec with
    | error e index =>
      rw [ha] at hindex
      exact hindex
    | ok iid index =>
      dsimp only
      split_ifs
      · trivial
      · trivial

omit [ColumnIndex ι] in
theorem insertAllocate_throwsOnly (hv : db.validate rec = .ok ()) :
    (db.insertAllocate K ext vec rec).ThrowsOnly Exn.OutOfRoom := by
  refine (allocateNode_throwsOnly db ext vec).andThen fun iid db' ha => ?_
  obtain ⟨index, -, -, rfl⟩ := allocateNode_ok ha
  obtain ⟨m, hm⟩ := appendRow_returns hv
  dsimp only
  rw [hm]
  trivial

omit [ColumnIndex ι] in
theorem updateAllocate_throwsOnly {rec : Option Record} (hv : db.validateUpdate rec = .ok ()) :
    (db.updateAllocate K ext vec rec).ThrowsOnly Exn.OutOfRoom := by
  unfold VDB.updateAllocate
  cases db.extToInt ext with
  | none => trivial
  | some old =>
    refine (allocateNode_throwsOnly db ext vec).andThen fun iid db' ha => ?_
    obtain ⟨index, -, -, rfl⟩ := allocateNode_ok ha
    cases rec with
    | none => trivial
    | some rec =>
      obtain ⟨m, hm⟩ := appendRow_returns hv
      dsimp only [VDB.appendMetadata]
      rw [hm]
      trivial

section

variable {P : Exn → Prop} (hP : ∀ (t : ι) key id, (ColumnIndex.insert t key id).ThrowsOnly P)

omit [Distance δ] in
theorem goDead_throwsOnly (db : VDB ι) (iid : InternalId) : (db.goDead iid).ThrowsOnly P := by
  obtain ⟨m, hm⟩ := db.metadata.markDead_returns iid
  rw [goDead]
  dsimp only
  rw [hm]
  trivial

omit [Distance δ] in
theorem remove_throwsOnly (db : VDB ι) (ext : ExternalId) : (db.remove ext).ThrowsOnly P := by
  unfold VDB.remove
  cases db.extToInt ext with
  | none => trivial
  | some iid => exact (goDead_throwsOnly db iid).andThen fun _ _ _ => trivial

include hP

omit [Distance δ] in
theorem goLive_throwsOnly (db : VDB ι) (iid : InternalId) : (db.goLive iid).ThrowsOnly P :=
  (MetadataStore.markLive_throwsOnly hP _ iid).mapState _

omit [Distance δ] in
theorem insertPublish_throwsOnly (db : VDB ι) (ext : ExternalId) (iid : InternalId) :
    (db.insertPublish ext iid).ThrowsOnly P :=
  (goLive_throwsOnly hP db iid).andThen fun _ _ _ => trivial

omit [Distance δ] in
theorem updatePublish_throwsOnly (db : VDB ι) (ext : ExternalId) (old iid : InternalId) :
    (db.updatePublish ext old iid).ThrowsOnly P :=
  (goLive_throwsOnly hP db iid).andThen fun _ _ _ =>
    (goDead_throwsOnly _ old).andThen fun _ _ _ => trivial

omit [Distance δ] in
theorem setMetadata_throwsOnly (hv : db.validate rec = .ok ()) :
    (db.setMetadata ext rec).ThrowsOnly P := by
  rw [VDB.setMetadata, hv]
  dsimp only
  cases db.extToInt ext with
  | none => trivial
  | some iid =>
    exact ((MetadataStore.setRow_throwsOnly hP _ hv iid).mapState _).andThen fun _ _ _ => trivial

end

variable [BoundedColumnIndex ι]

theorem insertReserved_throwsOnly (hv : db.validate rec = .ok ()) :
    (db.insertReserved K ext vec rec).ThrowsOnly Exn.OutOfRoom := by
  rw [VDB.insertReserved, hv]
  exact (insertAllocate_throwsOnly hv).andThen fun iid db' _ =>
    insertPublish_throwsOnly BoundedColumnIndex.insert_throws _ ext iid

theorem update_throwsOnly {rec : Option Record} (hv : db.validateUpdate rec = .ok ()) :
    (db.update K ext vec rec).ThrowsOnly Exn.OutOfRoom := by
  rw [VDB.update, hv]
  refine (updateAllocate_throwsOnly hv).andThen fun nodes db' _ => ?_
  cases nodes with
  | none => trivial
  | some nodes =>
    obtain ⟨old, iid⟩ := nodes
    refine (updatePublish_throwsOnly BoundedColumnIndex.insert_throws _ ext old iid).andThen ?_
    exact fun _ _ _ => trivial

/-- A call is rejected for its record, before it does anything, or throws only for lack of room. -/
theorem call_throwsOnly (K : Kernels δ) (db : VDB ι) (op : Op) :
    (∃ rec e, op.record = some rec ∧ db.validate rec = .error e ∧ db.call K op = .error e db) ∨
      (db.call K op).ThrowsOnly Exn.OutOfRoom := by
  cases op with
  | insert vec rec =>
    cases hv : db.validate rec with
    | error e => exact .inl ⟨rec, e, rfl, hv, by rw [VDB.call, VDB.insert, hv]; rfl⟩
    | ok _ =>
      refine .inr ?_
      rw [VDB.call, VDB.insert, hv]
      refine Outcome.ThrowsOnly.andThen ?_ fun _ _ _ => trivial
      have hreserved : db.reserveId.2.validate rec = .ok () := hv
      exact (insertReserved_throwsOnly hreserved).andThen fun _ _ _ => trivial
  | insertReserved ext vec rec =>
    cases hv : db.validate rec with
    | error e => exact .inl ⟨rec, e, rfl, hv, by rw [VDB.call, VDB.insertReserved, hv]; rfl⟩
    | ok _ =>
      refine .inr (Outcome.ThrowsOnly.andThen ?_ fun _ _ _ => trivial)
      exact insertReserved_throwsOnly hv
  | remove ext =>
    exact .inr ((remove_throwsOnly db ext).andThen fun _ _ _ => trivial)
  | update ext vec rec =>
    cases hv : db.validateUpdate rec with
    | error e =>
      cases rec with
      | none => cases hv
      | some rec => exact .inl ⟨rec, e, rfl, hv, by rw [VDB.call, VDB.update, hv]; rfl⟩
    | ok _ =>
      refine .inr (Outcome.ThrowsOnly.andThen ?_ fun _ _ _ => trivial)
      exact update_throwsOnly hv
  | setMetadata ext rec =>
    cases hv : db.validate rec with
    | error e => exact .inl ⟨rec, e, rfl, hv, by rw [VDB.call, VDB.setMetadata, hv]; rfl⟩
    | ok _ =>
      have hset : (db.setMetadata ext rec).ThrowsOnly Exn.OutOfRoom :=
        setMetadata_throwsOnly BoundedColumnIndex.insert_throws hv
      exact .inr (hset.andThen fun _ _ _ => trivial)
  | compact =>
    refine .inr (Outcome.ThrowsOnly.andThen ?_ fun _ _ _ => trivial)
    refine (Outcome.ThrowsOnly.mapState ?_ _).andThen fun _ _ _ => appendAll_throwsOnly _ _
    exact MetadataStore.permute_throwsOnly BoundedColumnIndex.insert_throws _ _
  | reload lsn => exact .inr trivial

omit [BoundedColumnIndex ι]

/-! ### What a call does to the map -/

variable {E : Prop} {J : ℕ → Column ι → List ColRow → Prop}

omit [Distance δ] in
/-- Publishing a row or taking it back leaves the dictionaries alone. -/
theorem fits_of_adjust {m m' : MetadataStore ι} {i : InternalId} {b : Bool}
    (h : (forColumns (fun _ c => c.adjust i b) 0 m.columns).mapState m.withColumns = .ok () m')
    (hfit : m'.Fits) : m.Fits := by
  obtain ⟨cs, hcs, rfl⟩ := Outcome.mapState_ok h
  obtain ⟨hlen, hall⟩ := forColumns_ok hcs
  intro c hc
  obtain ⟨a, ha⟩ := List.getElem?_of_mem hc
  have hlt : a < cs.length := hlen.symm ▸ (List.getElem?_eq_some_iff.1 ha).1
  obtain ⟨c₀, h₀, hadjust⟩ := hall a cs[a] (List.getElem?_eq_getElem hlt)
  rw [ha] at h₀
  cases h₀
  have hdict := Column.dict_adjust c i b
  rw [hadjust] at hdict
  rw [← hdict]
  exact hfit _ (List.getElem_mem hlt)

omit [ColumnIndex ι] in
theorem Holds.link (h : db.Holds J config es) (hi : iid < es.length) :
    (db.link K iid).Holds J config es := by
  obtain ⟨hsize, hkind⟩ : (db.index.link K db.config.metric iid).size = db.index.size ∧
      (db.index.link K db.config.metric iid).kind = db.index.kind := Index.size_link iid
  exact { h with
    kind := hkind.trans h.kind
    sound := h.sound.link (h.size.symm ▸ hi)
    size := hsize.trans h.size }

/-- An insert under an id that is not live. -/
theorem Holds.insertReserved (hJ : Column.Invariant True J anyWrite) (h : db.Holds J config es)
    (hb : rec.BoolsOk) (hnone : db.extToInt ext = none)
    (he : db.insertReserved K ext vec rec = .ok () db') (hfit : db'.Fits) :
    (∃ es', db'.Holds J config es') ∧ db'.nextExtId = (db.keepAhead ext).nextExtId ∧
      db'.logical = Function.update db.logical ext (some (.of config.schema.length vec rec)) := by
  have hok : ∀ a c rows, J a c rows → c.Ok rows := fun _ _ _ => hJ.ok trivial
  unfold VDB.insertReserved at he
  split at he
  · cases he
  · obtain ⟨iid, db₁, halloc, hpublish⟩ := Outcome.andThen_ok he
    have hfit₁ : db₁.Fits := by
      obtain ⟨_, db₂, hlive, hend⟩ := Outcome.andThen_ok hpublish
      cases hend
      obtain ⟨m, hm, rfl⟩ := goLive_ok hlive
      exact fits_of_adjust hm hfit
    obtain ⟨rfl, h₁, hnext⟩ := h.insertAllocate hJ (fun _ => hb) halloc fun _ => hfit₁
    set e : Entry := ⟨ext, vec, .ofRecord config.schema.length rec⟩
    have hi : (es ++ [e])[es.length]? = some e := List.getElem?_concat_length
    have hlt : es.length < (es ++ [e]).length := (List.getElem?_eq_some_iff.1 hi).1
    have hno : ∀ i, ¬ Lives (es ++ [e]) ext i := fun i hl => by
      rw [lives_append ext i rfl] at hl
      rw [(h.map ext i).2 hl] at hnone
      cases hnone
    obtain ⟨h₂, hnext₂⟩ := (h₁.link (K := K) hlt).insertPublish hJ hi rfl rfl hno hpublish
    refine ⟨⟨_, h₂⟩, hnext₂.trans hnext, ?_⟩
    rw [(h₁.link (K := K) hlt).logical_publish h₂ hok hi rfl hno,
      h.logical_append (h₁.link (K := K) hlt) hok rfl]
    rfl

/-- An update replaces what is under its id, if anything is. -/
theorem Holds.update (hJ : Column.Invariant True J anyWrite) (h : db.Holds J config es)
    {rec : Option Record} (hb : ∀ r ∈ rec, r.BoolsOk) {b : Bool}
    (he : db.update K ext vec rec = .ok b db') (hfit : db'.Fits) :
    (∃ es', db'.Holds J config es') ∧ db'.nextExtId = db.nextExtId ∧
      b = (db.logical ext).isSome ∧ db'.logical = Function.update db.logical ext
        ((db.logical ext).map (Point.updated config.schema.length vec rec)) := by
  have hok : ∀ a c rows, J a c rows → c.Ok rows := fun _ _ _ => hJ.ok trivial
  unfold VDB.update at he
  split at he
  · cases he
  · obtain ⟨nodes, db₁, halloc, hend⟩ := Outcome.andThen_ok he
    have hfit₁ : db₁.Fits := by
      cases nodes with
      | none =>
        cases hend
        exact hfit
      | some nodes =>
        obtain ⟨_, db₂, hpublish, hend⟩ := Outcome.andThen_ok hend
        cases hend
        obtain ⟨_, db₃, hlive, hrest⟩ := Outcome.andThen_ok hpublish
        obtain ⟨_, db₄, hdead, hend⟩ := Outcome.andThen_ok hrest
        cases hend
        obtain ⟨m, hm, rfl⟩ := goLive_ok hlive
        obtain ⟨m', hm', rfl⟩ := goDead_ok hdead
        exact fits_of_adjust hm (fits_of_adjust hm' hfit)
    obtain ⟨rfl, rfl, hnone⟩ | ⟨old, o, rfl, hold, holive, hoext, h₁, hnext⟩ :=
      h.updateAllocate hJ (fun _ => hb) halloc fun _ => hfit₁
    · cases hend
      have hx := h.logical_none hnone
      refine ⟨⟨es, h⟩, rfl, by rw [hx]; rfl, ?_⟩
      rw [hx, Option.map_none, ← hx, Function.update_eq_self]
    · obtain ⟨_, db₂, hpublish, hend⟩ := Outcome.andThen_ok hend
      cases hend
      set e : Entry := ⟨ext, vec, replacement config.schema.length o rec⟩
      have hi : (es ++ [e])[es.length]? = some e := List.getElem?_concat_length
      have hlt : es.length < (es ++ [e]).length := (List.getElem?_eq_some_iff.1 hi).1
      have hdead : e.isLive = false := isLive_replacement config.schema.length o rec
      have hold₁ : (es ++ [e])[old]? = some o :=
        (List.getElem?_append_left (List.getElem?_eq_some_iff.1 hold).1).trans hold
      obtain ⟨h₂, hnext₂⟩ :=
        (h₁.link (K := K) hlt).updatePublish hJ hi hdead rfl hold₁ holive hoext hpublish
      have hx := h.logical_some hok hold holive hoext
      refine ⟨⟨_, h₂⟩, hnext₂.trans hnext, by rw [hx]; rfl, ?_⟩
      rw [(h₁.link (K := K) hlt).logical_replace h₂ hok hi rfl (ne_of_live hi hdead hold₁ holive)
          hold₁ holive hoext,
        h.logical_append (h₁.link (K := K) hlt) hok hdead, hx]
      cases rec <;> rfl

/-! ### The refinement -/

/-- An id that the caller chooses is not live. -/
def Fresh (db : VDB ι) : Op → Prop
  | .insertReserved ext _ _ => db.extToInt ext = none
  | _ => True

/-- The counter of the ids does not come to its end. -/
def Counts (db : VDB ι) : Op → Prop
  | .insert _ _ => db.nextExtId + 1 < 2 ^ 64
  | .insertReserved ext _ _ => ext + 1 < 2 ^ 64
  | _ => True

omit [ColumnIndex ι] in
instance decidableFresh (db : VDB ι) : (op : Op) → Decidable (db.Fresh op)
  | .insertReserved ext _ _ => inferInstanceAs (Decidable (db.extToInt ext = none))
  | .insert _ _ | .remove _ | .update _ _ _ | .setMetadata _ _ | .compact | .reload _ =>
    .isTrue trivial

omit [ColumnIndex ι] in
instance decidableCounts (db : VDB ι) : (op : Op) → Decidable (db.Counts op)
  | .insert _ _ => inferInstanceAs (Decidable (db.nextExtId + 1 < 2 ^ 64))
  | .insertReserved ext _ _ => inferInstanceAs (Decidable (ext + 1 < 2 ^ 64))
  | .remove _ | .update _ _ _ | .setMetadata _ _ | .compact | .reload _ => .isTrue trivial

/-- What is asked of a call: its Bools are 0 or 1, and there is room for what it adds. -/
structure Careful (K : Kernels δ) (db : VDB ι) (op : Op) : Prop where
  fresh : db.Fresh op
  bools : ∀ rec ∈ op.record, rec.BoolsOk
  room : (db.call K op).ThrowsOnly fun e => ¬ e.OutOfRoom
  fits : (db.apply K op).Fits

instance decidableCareful (K : Kernels δ) (db : VDB ι) (op : Op) : Decidable (db.Careful K op) :=
  decidable_of_iff (db.Fresh op ∧ (∀ rec ∈ op.record, rec.BoolsOk) ∧
      ((db.call K op).ThrowsOnly fun e => ¬ e.OutOfRoom) ∧ (db.apply K op).Fits)
    ⟨fun ⟨h1, h2, h3, h4⟩ => ⟨h1, h2, h3, h4⟩, fun ⟨h1, h2, h3, h4⟩ => ⟨h1, h2, h3, h4⟩⟩

/-- What a call answers. -/
def reply (K : Kernels δ) (db : VDB ι) (op : Op) : Option Reply :=
  match db.call K op with
  | .ok r _ => some r
  | .error _ _ => none

/-- The database shows the map. -/
structure Shows (db : VDB ι) (s : Contents) : Prop where
  minted : s.Minted
  points : db.logical = s.points
  contains : ∀ x, db.contains x = (s.points x).isSome
  /-- The attributes and the payload of a point; a record without attributes reads as all null. -/
  getMetadata : ∀ x, (db.getMetadata x).map (fun r => (r.attrs.map AttrValue.carried, r.payload)) =
    (s.points x).map fun p => (p.attrs, p.payload)
  size : ∃ ids : Finset ExternalId, (∀ x, x ∈ ids ↔ (s.points x).isSome) ∧ db.size = ids.card
  /-- The rows that no id stands for. -/
  deletedCount : ∃ rows : Finset InternalId,
    (∀ i, i ∈ rows ↔ i < db.intToExt.length ∧ ∀ x, db.extToInt x ≠ some i) ∧
      db.deletedCount = rows.card

/-- A database and the map it shows, between two calls. -/
structure Shown (J : ℕ → Column ι → List ColRow → Prop) (config : VDBConfig) (db : VDB ι)
    (s : Contents) : Prop where
  holds : ∃ es, db.Holds J config es
  points : db.logical = s.points
  minted : s.Minted
  ahead : ∀ x ∈ s.minted, x < db.nextExtId

omit [Distance δ] in
theorem logical_isSome (x : ExternalId) : (db.logical x).isSome = (db.extToInt x).isSome := by
  unfold VDB.logical
  rw [Option.isSome_map]

omit [ColumnIndex ι] in
/-- The ids of the live entries. -/
theorem Holds.liveIds (h : db.Holds J config es) : ∃ ids : Finset ExternalId,
    (∀ x, x ∈ ids ↔ (db.extToInt x).isSome) ∧ db.liveCount = ids.card := by
  refine ⟨⟨_, Multiset.coe_nodup.2 h.nodup⟩, fun x => ?_, ?_⟩
  · rw [Finset.mem_mk, Multiset.mem_coe, List.mem_map]
    constructor
    · rintro ⟨e, he, rfl⟩
      obtain ⟨hmem, hlive⟩ := List.mem_filter.1 he
      obtain ⟨i, hi⟩ := List.getElem?_of_mem hmem
      rw [(h.map e.ext i).2 ⟨e, hi, hlive, rfl⟩]
      rfl
    · intro hx
      obtain ⟨i, hi⟩ := Option.isSome_iff_exists.1 hx
      obtain ⟨e, he, hlive, hext⟩ := (h.map x i).1 hi
      exact ⟨e, List.mem_filter.2 ⟨List.mem_of_getElem? he, hlive⟩, hext⟩
  · rw [h.liveCount, Finset.card_mk, Multiset.coe_card, List.length_map,
      List.countP_eq_length_filter]

omit [ColumnIndex ι] in
/-- The numbers of the other entries. -/
theorem Holds.deadRows (h : db.Holds J config es) : ∃ rows : Finset InternalId,
    (∀ i, i ∈ rows ↔ i < db.intToExt.length ∧ ∀ x, db.extToInt x ≠ some i) ∧
      db.deletedCount = rows.card := by
  have hnodup := (List.nodup_range (n := es.length)).filter fun i => !(entryAt es i).isLive
  refine ⟨⟨_, Multiset.coe_nodup.2 hnodup⟩, fun i => ?_, ?_⟩
  · rw [Finset.mem_mk, Multiset.mem_coe, List.mem_filter, List.mem_range, h.ids, List.length_map,
      Bool.not_eq_true']
    refine and_congr_right fun hi => ?_
    have hget := List.getElem?_eq_getElem hi
    rw [entryAt_of_getElem hget]
    constructor
    · intro hdead x hx
      obtain ⟨e, he, hlive, -⟩ := (h.map x i).1 hx
      rw [hget] at he
      cases he
      rw [hdead] at hlive
      cases hlive
    · intro hnone
      by_contra hlive
      rw [Bool.not_eq_false] at hlive
      exact hnone _ ((h.map _ i).2 ⟨_, hget, hlive, rfl⟩)
  · rw [h.deletedCount, Finset.card_mk, Multiset.coe_card, ← List.countP_eq_length_filter]
    conv_lhs => rw [← map_entryAt es]
    rw [List.countP_map]
    rfl

omit [Distance δ] in
theorem Shown.shows (h : db.Shown J config s) : db.Shows s := by
  obtain ⟨es, hholds⟩ := h.holds
  have hsome : ∀ x, (s.points x).isSome = (db.extToInt x).isSome := fun x => by
    rw [← h.points, logical_isSome]
  constructor
  case minted => exact h.minted
  case points => exact h.points
  case contains => exact fun x => (hsome x).symm
  case getMetadata =>
    intro x
    rw [← h.points, VDB.getMetadata, VDB.logical, Option.map_map, Option.map_map]
    rfl
  case size =>
    obtain ⟨ids, hids, hcard⟩ := hholds.liveIds
    exact ⟨ids, fun x => by rw [hids, hsome], hcard⟩
  case deletedCount => exact hholds.deadRows

omit [Distance δ] in
/-- A change of what stands under one id. -/
theorem Shown.put (h : db.Shown J config s) (h' : ∃ es', db'.Holds J config es')
    {p : Option Point} (hpoints : db'.logical = Function.update db.logical ext p)
    (hminted : (s.put ext p).Minted) (hnext : db'.nextExtId = db.nextExtId) :
    db'.Shown J config (s.put ext p) where
  holds := h'
  points := by rw [hpoints, h.points]; rfl
  minted := hminted
  ahead x hx := (h.ahead x hx).trans_eq hnext.symm

omit [Distance δ] in
/-- A point under an id that is given out now. -/
theorem Shown.mint (h : db.Shown J config s) (h' : ∃ es', db'.Holds J config es') {p : Point}
    (hpoints : db'.logical = Function.update db.logical ext (some p))
    (hnext : db.nextExtId ≤ db'.nextExtId) (hext : ext < db'.nextExtId) :
    db'.Shown J config ((s.mint ext).put ext (some p)) where
  holds := h'
  points := by rw [hpoints, h.points]; rfl
  minted := h.minted.mint.put fun _ => List.mem_cons_self
  ahead x hx := by
    rcases List.mem_cons.1 hx with rfl | hx
    · exact hext
    · exact (h.ahead x hx).trans_le hnext

omit [ColumnIndex ι] [Distance δ] in
theorem Holds.validate (h : db.Holds J config es) (rec : Record) :
    db.validate rec = Metadata.validate config.schema rec := by
  rw [VDB.validate, h.metadata.declared]

theorem Shown.insert (hJ : Column.Invariant True J anyWrite) (h : db.Shown J config s)
    (hb : rec.BoolsOk) (hroom : db.nextExtId + 1 < 2 ^ 64)
    (he : db.insert K vec rec = .ok ext db') (hfit : db'.Fits) :
    ∃ s', Contents.Step config.schema s (.insert vec rec) (some (.id ext)) s' ∧
      db'.Shown J config s' := by
  obtain ⟨es, hholds⟩ := h.holds
  unfold VDB.insert at he
  split at he
  · cases he
  · next hv =>
    obtain ⟨_, db₁, hreserved, hend⟩ := Outcome.andThen_ok he
    cases hend
    have hwrap : (db.nextExtId + 1) % 2 ^ 64 = db.nextExtId + 1 := Nat.mod_eq_of_lt hroom
    have hnot : db.nextExtId ∉ s.minted := fun hm => (h.ahead _ hm).false
    -- an id that was not given out is not live
    have hnone : db.reserveId.2.extToInt db.reserveId.1 = none := by
      by_contra hne
      obtain ⟨i, hi⟩ := Option.ne_none_iff_exists'.1 hne
      refine hnot (h.minted _ (db.pointAt i) ?_)
      rw [← h.points, VDB.logical]
      exact congrArg (Option.map db.pointAt) hi
    have hreserve : db.reserveId.2.Holds J config es := { hholds with }
    obtain ⟨h', hnext, hlogical⟩ := hreserve.insertReserved hJ hb hnone hreserved hfit
    have hkeep : db'.nextExtId = db.nextExtId + 1 := by
      rw [hnext, VDB.reserveId, VDB.keepAhead]
      dsimp only
      rw [hwrap, if_neg (Nat.not_succ_le_self _)]
    exact ⟨_, .insert ((hholds.validate rec).symm.trans hv) hnot,
      h.mint h' hlogical (hkeep ▸ Nat.le_succ _) (hkeep ▸ Nat.lt_succ_self _)⟩

theorem Shown.insertReserved (hJ : Column.Invariant True J anyWrite) (h : db.Shown J config s)
    (hb : rec.BoolsOk) (hnone : db.extToInt ext = none) (hroom : ext + 1 < 2 ^ 64)
    (he : db.insertReserved K ext vec rec = .ok () db') (hfit : db'.Fits) :
    ∃ s', Contents.Step config.schema s (.insertReserved ext vec rec) (some .done) s' ∧
      db'.Shown J config s' := by
  obtain ⟨es, hholds⟩ := h.holds
  obtain ⟨h', hnext, hlogical⟩ := hholds.insertReserved hJ hb hnone he hfit
  have hkeep : db.nextExtId ≤ db'.nextExtId ∧ ext < db'.nextExtId := by
    rw [hnext, VDB.keepAhead]
    split_ifs with hle
    · dsimp only
      rw [Nat.mod_eq_of_lt hroom]
      exact ⟨Nat.le_succ_of_le hle, Nat.lt_succ_self ext⟩
    · exact ⟨le_rfl, not_le.1 hle⟩
  have hempty : s.points ext = none := by
    rw [← h.points, VDB.logical, hnone]
    rfl
  have hv : db.validate rec = .ok () := by
    unfold VDB.insertReserved at he
    split at he
    · cases he
    · assumption
  exact ⟨_, .insertReserved ((hholds.validate rec).symm.trans hv) hempty,
    h.mint h' hlogical hkeep.1 hkeep.2⟩

omit [Distance δ] in
theorem Shown.remove (hJ : Column.Invariant True J anyWrite) (h : db.Shown J config s) {b : Bool}
    (he : db.remove ext = .ok b db') :
    ∃ s', Contents.Step config.schema s (.remove ext) (some (.found b)) s' ∧
      db'.Shown J config s' := by
  have hok : ∀ a c rows, J a c rows → c.Ok rows := fun _ _ _ => hJ.ok trivial
  obtain ⟨es, hholds⟩ := h.holds
  have hpoint := congrFun h.points ext
  have hstep : Contents.Step config.schema s _ _ _ := .remove (x := ext)
  have hminted : (s.put ext none).Minted := h.minted.put Bool.noConfusion
  obtain ⟨hnext, ⟨rfl, rfl, hnone⟩ | ⟨i, rfl, hlives, h'⟩⟩ := hholds.remove hJ he
  · have hx := hholds.logical_none hnone
    rw [← hpoint, hx] at hstep
    refine ⟨_, hstep, h.put ⟨es, hholds⟩ ?_ hminted hnext⟩
    rw [← hx, Function.update_eq_self]
  · have hlogical := hholds.logical_remove h' hok hlives
    obtain ⟨e, hi, hlive, hext⟩ := hlives
    rw [← hpoint, hholds.logical_some hok hi hlive hext] at hstep
    exact ⟨_, hstep, h.put ⟨_, h'⟩ hlogical hminted hnext⟩

theorem Shown.update (hJ : Column.Invariant True J anyWrite) (h : db.Shown J config s)
    {rec : Option Record} (hb : ∀ r ∈ rec, r.BoolsOk) {b : Bool}
    (he : db.update K ext vec rec = .ok b db') (hfit : db'.Fits) :
    ∃ s', Contents.Step config.schema s (.update ext vec rec) (some (.found b)) s' ∧
      db'.Shown J config s' := by
  obtain ⟨es, hholds⟩ := h.holds
  obtain ⟨h', hnext, rfl, hlogical⟩ := hholds.update hJ hb he hfit
  have hv : ∀ r ∈ rec, Metadata.validate config.schema r = .ok () := by
    rintro r hr
    cases hr
    unfold VDB.update at he
    split at he
    · cases he
    · next hv => exact (hholds.validate r).symm.trans hv
  rw [congrFun h.points ext] at hlogical ⊢
  exact ⟨_, .update hv, h.put h' hlogical (h.minted.change _) hnext⟩

omit [Distance δ] in
theorem Shown.setMetadata (hJ : Column.Invariant True J anyWrite) (h : db.Shown J config s)
    (hb : rec.BoolsOk) {b : Bool} (he : db.setMetadata ext rec = .ok b db') (hfit : db'.Fits) :
    ∃ s', Contents.Step config.schema s (.setMetadata ext rec) (some (.found b)) s' ∧
      db'.Shown J config s' := by
  have hok : ∀ a c rows, J a c rows → c.Ok rows := fun _ _ _ => hJ.ok trivial
  obtain ⟨es, hholds⟩ := h.holds
  have hpoint := congrFun h.points ext
  have hv : db.validate rec = .ok () := by
    unfold VDB.setMetadata at he
    split at he
    · cases he
    · assumption
  have hminted := h.minted.change (x := ext) (Point.withRecord config.schema.length rec)
  have hstep : Contents.Step config.schema s _ _ _ :=
    .setMetadata (x := ext) ((hholds.validate rec).symm.trans hv)
  obtain ⟨hnext, ⟨rfl, rfl, hnone⟩ | ⟨i, rfl, hlives, h'⟩⟩ := hholds.setMetadata hJ
    (fun _ => hb) (fun _ _ _ _ _ _ _ => trivial) he fun _ => hfit
  · have hx := hholds.logical_none hnone
    rw [← hpoint, hx] at hstep hminted
    refine ⟨_, hstep, h.put ⟨es, hholds⟩ ?_ hminted hnext⟩
    rw [Option.map_none, ← hx, Function.update_eq_self]
  · have hlogical := hholds.logical_setMetadata h' hok hlives
    obtain ⟨e, hi, hlive, hext⟩ := hlives
    have hx := hholds.logical_some hok hi hlive hext
    rw [← hpoint, hx] at hstep hminted
    rw [hx] at hlogical
    exact ⟨_, hstep, h.put ⟨_, h'⟩ hlogical hminted hnext⟩

/-- **One call** answers and does what it does on the map. -/
theorem Shown.step [BoundedColumnIndex ι] (hJ : Column.Invariant True J anyWrite)
    (h : db.Shown J config s) (hc : db.Careful K op) (hcounts : db.Counts op)
    (hop : ∀ lsn, op ≠ .reload lsn) :
    ∃ s', Contents.Step config.schema s op (db.reply K op) s' ∧
      (db.apply K op).Shown J config s' := by
  obtain ⟨es, hholds⟩ := h.holds
  have hfit := hc.fits
  have hfresh := hc.fresh
  unfold VDB.apply VDB.reply at *
  cases hcall : db.call K op with
  | error e db' =>
    -- with room for it, a call throws only when its record is rejected
    obtain ⟨rec, e', hrec, hv, hsame⟩ := (call_throwsOnly K db op).resolve_right fun hroom => by
      have hnot := hc.room
      rw [hcall] at hroom hnot
      exact hnot hroom
    rw [hsame] at hcall
    cases hcall
    refine ⟨s, .rejected hrec ?_, h⟩
    rw [← hholds.validate, hv]
    rintro ⟨⟩
  | ok r db' =>
    rw [hcall] at hfit
    change ∃ s', Contents.Step config.schema s op (some r) s' ∧ db'.Shown J config s'
    cases op with
    | insert vec rec =>
      obtain ⟨ext, db₁, he, hend⟩ := Outcome.andThen_ok hcall
      cases hend
      exact h.insert hJ (hc.bools rec rfl) hcounts he hfit
    | insertReserved ext vec rec =>
      obtain ⟨_, db₁, he, hend⟩ := Outcome.andThen_ok hcall
      cases hend
      exact h.insertReserved hJ (hc.bools rec rfl) hfresh hcounts he hfit
    | remove ext =>
      obtain ⟨b, db₁, he, hend⟩ := Outcome.andThen_ok hcall
      cases hend
      exact h.remove hJ he
    | update ext vec rec =>
      obtain ⟨b, db₁, he, hend⟩ := Outcome.andThen_ok hcall
      cases hend
      exact h.update hJ hc.bools he hfit
    | setMetadata ext rec =>
      obtain ⟨b, db₁, he, hend⟩ := Outcome.andThen_ok hcall
      cases hend
      exact h.setMetadata hJ (hc.bools rec rfl) he hfit
    | compact =>
      obtain ⟨_, db₁, he, hend⟩ := Outcome.andThen_ok hcall
      cases hend
      obtain ⟨h', hnext⟩ := hholds.compact hJ he
      refine ⟨s, .compact, ⟨_, h'⟩, ?_, h.minted, fun x hx => (h.ahead x hx).trans_eq hnext.symm⟩
      rw [hholds.logical_compact h' (fun _ _ _ => hJ.ok trivial), h.points]
    | reload lsn => exact absurd rfl (hop lsn)

/-- After a compaction no row is dead. -/
theorem Shown.deletedCount_compact [BoundedColumnIndex ι] (hJ : Column.Invariant True J anyWrite)
    (h : db.Shown J config s) (hroom : (db.call K .compact).ThrowsOnly fun e => ¬ e.OutOfRoom) :
    (db.apply K .compact).deletedCount = 0 := by
  obtain ⟨es, hholds⟩ := h.holds
  unfold VDB.apply
  cases hcall : db.call K .compact with
  | error e db' =>
    obtain ⟨rec, e', hrec, -⟩ := (call_throwsOnly K db .compact).resolve_right fun hroom' => by
      rw [hcall] at hroom hroom'
      exact hroom hroom'
    cases hrec
  | ok r db' =>
    obtain ⟨_, db₁, he, hend⟩ := Outcome.andThen_ok hcall
    cases hend
    obtain ⟨h', -⟩ := hholds.compact hJ he
    refine h'.deletedCount.trans (List.countP_eq_zero.2 fun e he => ?_)
    rw [(List.mem_filter.1 he).2]
    exact Bool.false_ne_true

omit [Distance δ] in
theorem shown_new (hnew : VDB.new config = .ok db)
    (hJ : ∀ a spec, config.schema[a]? = some spec → J a (Column.new spec) []) :
    db.Shown J config {} := by
  have hholds := holds_new hnew hJ
  refine ⟨⟨[], hholds⟩, ?_, nofun, nofun⟩
  funext x
  exact hholds.logical_none fun i ⟨e, he, _⟩ => by cases he

/-- **The map.**  A run of calls answers and does what it does on a map from ids to points, and the
database shows the map all along. -/
theorem refines_run [BoundedColumnIndex ι] (hnew : VDB.new config = .ok db₀) (ops : List Op)
    (hops : ∀ op ∈ ops, ∀ lsn, op ≠ .reload lsn)
    (h : Run.Along (apply K) (fun db op => db.Careful K op ∧ db.Counts op) db₀ ops) :
    Run.Refines (apply K) (reply K) (Contents.Step config.schema) Shows db₀ {} ops ∧
      Run.Along (apply K) (fun db op => op = .compact →
      (db.apply K op).deletedCount = 0) db₀ ops := by
  have hJ := Column.invariant_ok (ι := ι)
  have hstart : db₀.Shown (fun _ c rows => c.Ok rows) config {} :=
    shown_new hnew fun _ spec _ => Column.ok_new spec
  have hstep : ∀ (db : VDB ι) (s : Contents) (op : Op),
    db.Shown (fun _ c rows => c.Ok rows) config s →
      ((db.Careful K op ∧ db.Counts op) ∧ ∀ lsn, op ≠ .reload lsn) →
      ∃ s', Contents.Step config.schema s op (db.reply K op) s' ∧
        (db.apply K op).Shown (fun _ c rows => c.Ok rows) config s' :=
    fun db s op hs hc => hs.step hJ hc.1.1 hc.1.2 hc.2
  have hrun := h.and_forall hops
  refine ⟨hrun.refines (fun _ _ hs => hs.shows) hstep hstart, ?_⟩
  refine Run.Along.always
    (I := fun db : VDB ι => ∃ s, db.Shown (fun _ c rows => c.Ok rows) config s) ?_ ?_
    ⟨{}, hstart⟩ hrun
  · rintro db op ⟨s, hs⟩ hc
    obtain ⟨s', -, hs'⟩ := hstep db s op hs hc
    exact ⟨s', hs'⟩
  · rintro db op ⟨s, hs⟩ ⟨⟨hc, -⟩, -⟩ rfl
    exact hs.deletedCount_compact hJ hc.room

/-- Every operation on two ids, and a record with too many attributes. -/
def everyOp : List Op :=
  [.insert [1] { attrs := [attrTag [97]] }, .insertReserved 7 [2] {}, .update 0 [3] none,
    .update 7 [4] (some { attrs := [attrTag [98]] }), .setMetadata 0 {}, .remove 7,
    .insert [5] { attrs := [attrTag [97], attrTag [97]] }, .compact]

theorem refines_everyOp :
    Run.Refines (apply System.onePlace) (reply System.onePlace)
        (Contents.Step taggedConfig.schema) Shows taggedDb {} everyOp ∧
      Run.Along (apply System.onePlace)
        (fun db op => op = .compact → (db.apply System.onePlace op).deletedCount = 0) taggedDb
        everyOp :=
  refines_run new_taggedDb everyOp (by simp [everyOp]) (by decide +kernel)

/-- An insert, one under the largest id, and the insert after it. -/
def lastId : List Op := [.insert [1] {}, .insertReserved (2 ^ 64 - 1) [2] {}, .insert [3] {}]

/-- The insert after the one under the largest id gives out the id of the first one again. -/
theorem minted_again :
    Run.Along (apply System.onePlace) (fun db op => db.Careful System.onePlace op)
        (plainDb .brute) lastId ∧
      ¬ Run.Refines (apply System.onePlace) (reply System.onePlace)
        (Contents.Step (plainConfig .brute).schema) Shows (plainDb .brute) {} lastId := by
  refine ⟨by decide +kernel, ?_⟩
  rintro ⟨-, s₁, h₁, -, s₂, h₂, -, s₃, h₃, -⟩
  have hfirst : (plainDb .brute).reply System.onePlace (.insert [1] {}) = some (.id 0) := by
    decide +kernel
  have hagain : VDB.reply System.onePlace
      (((plainDb .brute).apply System.onePlace (.insert [1] {})).apply System.onePlace
        (.insertReserved (2 ^ 64 - 1) [2] {})) (.insert [3] {}) = some (.id 0) := by decide +kernel
  rw [hfirst] at h₁
  rw [hagain] at h₃
  cases h₁
  cases h₂ with
  | insertReserved =>
    cases h₃ with
    | insert _ hnew => exact hnew (List.mem_cons_of_mem _ List.mem_cons_self)

end VDB

end Database

end Vdb
