import Vdb.Database.Numbering
import Vdb.Metadata.Lifecycle

/-!
# The rows of a database

The abstract content of a `VDB` is a list of entries, one for each internal id: the external id, the
vector and the metadata row.  `VDB.Holds` says that all the arrays, maps and counters of a database
are those of a list of entries; the lemmas say what each phase of an operation does to the list.
-/

namespace Vdb

namespace Database

open Metadata

/-- What the database holds under one internal id. -/
structure Entry where
  ext : ExternalId
  vec : Vec
  row : Row
  deriving DecidableEq

namespace Entry

def isLive (e : Entry) : Bool := e.row.isLive

def withStatus (status : RowStatus) (e : Entry) : Entry :=
  { e with row := { e.row with status } }

/-- The entry with the attributes and the payload of another record. -/
def withRecord (n : ℕ) (rec : Record) (e : Entry) : Entry :=
  { e with row := { e.row with attrs := Row.attrsOf n rec, payload := rec.payload } }

end Entry

namespace VDB

variable {ι δ : Type} {J : ℕ → Column ι → List ColRow → Prop} {W : ℕ → AttrValue → AttrValue → Prop}
  {config : VDBConfig} {db db' : VDB ι} {es : List Entry} {e : Entry} {ext x : ExternalId}
  {i iid old : InternalId} {vec : Vec} {rec : Record}

/-- The row `i` is live and has this external id. -/
def Lives (es : List Entry) (x : ExternalId) (i : InternalId) : Prop :=
  ∃ e, es[i]? = some e ∧ e.isLive = true ∧ e.ext = x

/-- A database of this configuration holds the entries. -/
structure Holds (J : ℕ → Column ι → List ColRow → Prop) (config : VDBConfig) (db : VDB ι)
    (es : List Entry) : Prop where
  configured : db.config = config
  kind : db.index.kind = config.kind
  sound : db.index.Sound
  size : db.index.size = es.length
  ids : db.intToExt = es.map Entry.ext
  deleted : db.deleted = es.map fun e => !e.isLive
  vectors : db.vectors = es.map Entry.vec
  metadata : db.metadata.Holds J config.schema (es.map Entry.row)
  map : ∀ x i, db.extToInt x = some i ↔ Lives es x i
  liveCount : db.liveCount = es.countP Entry.isLive
  deletedCount : db.deletedCount = es.countP fun e => !e.isLive

/-- Every dictionary of the metadata fits its codes. -/
def Fits (db : VDB ι) : Prop := db.metadata.Fits

instance (db : VDB ι) : Decidable db.Fits := inferInstanceAs (Decidable db.metadata.Fits)

theorem getElem?_row (hi : es[i]? = some e) :
    (es.map Entry.row)[i]? = some e.row := by
  rw [List.getElem?_map, hi]
  rfl

/-- A live external id names one row. -/
theorem Holds.unique (h : db.Holds J config es) {j : InternalId} (hi : Lives es x i)
    (hj : Lives es x j) : i = j :=
  Option.some.inj (((h.map x i).2 hi).symm.trans ((h.map x j).2 hj))

/-- A row that is live is not one that is not. -/
theorem ne_of_live {o : Entry} {j : InternalId} (hi : es[i]? = some e) (hlive : e.isLive = false)
    (hj : es[j]? = some o) (holive : o.isLive = true) : i ≠ j := by
  rintro rfl
  have heq : e = o := Option.some.inj (hi.symm.trans hj)
  rw [heq, holive] at hlive
  cases hlive

theorem getElem?_modify_self {upd : Entry → Entry} (hi : es[i]? = some e) :
    (es.modify i upd)[i]? = some (upd e) := by
  rw [List.getElem?_modify, hi]
  simp

theorem getElem?_modify_ne {upd : Entry → Entry} {j : ℕ} (hij : i ≠ j) :
    (es.modify i upd)[j]? = es[j]? := by
  rw [List.getElem?_modify]
  simp [hij]

theorem map_modify {α : Type} (g : Entry → α) (upd : Entry → Entry) (hi : es[i]? = some e) :
    (es.modify i upd).map g = (es.map g).set i (g (upd e)) := by
  refine List.ext_getElem? fun j => ?_
  rw [List.getElem?_map, List.getElem?_set, List.getElem?_map]
  by_cases hij : i = j
  · subst hij
    rw [getElem?_modify_self hi]
    simp [(List.getElem?_eq_some_iff.1 hi).1]
  · rw [getElem?_modify_ne hij, if_neg hij]

/-- A field that a change of one entry leaves alone. -/
theorem map_modify_of_eq {α : Type} (g : Entry → α) {upd : Entry → Entry}
    (hg : ∀ e, g (upd e) = g e) : (es.modify i upd).map g = es.map g := by
  refine List.ext_getElem? fun j => ?_
  rw [List.getElem?_map, List.getElem?_map]
  by_cases hij : i = j
  · subst hij
    rw [List.getElem?_modify]
    cases es[i]? with
    | none => rfl
    | some e => simp [hg]
  · rw [getElem?_modify_ne hij]

@[simp] theorem ext_withStatus (status : RowStatus) :
    (es.modify i (Entry.withStatus status)).map Entry.ext = es.map Entry.ext :=
  map_modify_of_eq Entry.ext fun _ => rfl

@[simp] theorem vec_withStatus (status : RowStatus) :
    (es.modify i (Entry.withStatus status)).map Entry.vec = es.map Entry.vec :=
  map_modify_of_eq Entry.vec fun _ => rfl

theorem modify_row {upd : Entry → Entry} {g : Row → Row} (h : ∀ e, (upd e).row = g e.row) :
    (es.modify i upd).map Entry.row = (es.map Entry.row).modify i g := by
  refine List.ext_getElem? fun j => ?_
  rw [List.getElem?_map, List.getElem?_modify, List.getElem?_modify, List.getElem?_map]
  cases es[j]? with
  | none => rfl
  | some e => by_cases hij : i = j <;> simp [hij, h]

theorem countP_modify (p : Entry → Bool) (upd : Entry → Entry) (hi : es[i]? = some e) :
    (es.modify i upd).countP p + (p e).toNat = es.countP p + (p (upd e)).toNat := by
  induction es generalizing i with
  | nil => cases hi
  | cons a es ih =>
    cases i with
    | zero =>
      cases hi
      rw [List.modify_zero_cons, List.countP_cons, List.countP_cons]
      cases p e <;> cases p (upd e) <;> simp
    | succ i =>
      have := ih hi
      rw [List.modify_succ_cons, List.countP_cons, List.countP_cons]
      omega

theorem length_modify (upd : Entry → Entry) : (es.modify i upd).length = es.length :=
  List.length_modify ..

/-- The rows that live after one has changed its status. -/
theorem lives_modify {upd : Entry → Entry} (hi : es[i]? = some e) (hext : (upd e).ext = e.ext)
    (x : ExternalId) (j : InternalId) : Lives (es.modify i upd) x j ↔
      if j = i then (upd e).isLive = true ∧ e.ext = x else Lives es x j := by
  unfold Lives
  by_cases hij : j = i
  · subst hij
    rw [if_pos rfl, getElem?_modify_self hi]
    constructor
    · rintro ⟨e', he, hl, hx⟩
      cases he
      exact ⟨hl, hext ▸ hx⟩
    · rintro ⟨hl, hx⟩
      exact ⟨_, rfl, hl, hext.trans hx⟩
  · rw [if_neg hij, getElem?_modify_ne (Ne.symm hij)]

theorem lives_append (x : ExternalId) (j : InternalId) (he : e.isLive = false) :
    Lives (es ++ [e]) x j ↔ Lives es x j := by
  unfold Lives
  rcases lt_trichotomy j es.length with hj | rfl | hj
  · rw [List.getElem?_append_left hj]
  · simp [he]
  · have hlen : (es ++ [e]).length ≤ j := by
      rw [List.length_append]
      exact hj
    rw [List.getElem?_eq_none hlen, List.getElem?_eq_none hj.le]

theorem holds_new [ColumnIndex ι] (hnew : VDB.new config = .ok db)
    (hJ : ∀ a spec, config.schema[a]? = some spec → J a (Column.new spec) []) :
    db.Holds J config [] := by
  unfold VDB.new at hnew
  cases hm : (MetadataStore.new config.schema : Except Exn (MetadataStore ι)) with
  | error e =>
    rw [hm] at hnew
    cases hnew
  | ok m =>
    rw [hm] at hnew
    cases hnew
    obtain ⟨hsize, hkind⟩ := Index.size_make config
    exact
    { configured := rfl, kind := hkind, sound := Index.sound_make config, size := hsize
      ids := rfl, deleted := rfl, vectors := rfl
      metadata := MetadataStore.holds_new hm hJ
      map := fun x i => ⟨by rintro ⟨⟩, by rintro ⟨e, ⟨⟩, -⟩⟩
      liveCount := rfl, deletedCount := rfl }

end VDB

end Database

end Vdb
