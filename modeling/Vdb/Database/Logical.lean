import Vdb.Database.Phases

/-!
# The logical database

What the operations of a `VDB` are about: a map from the external ids that are live to points, each
a vector with its attributes and its payload.  `VDB.logical` reads the map off a database; the
lemmas say what the changes to its entries do to it.
-/

namespace Vdb

namespace Database

open Metadata

/-- A vector and what is attached to it; of each attribute, what its type carries. -/
structure Point where
  vec : Vec
  attrs : List AttrValue
  payload : Bytes
  deriving DecidableEq

/-- The point a vector and a record make, under a schema of `n` attributes. -/
def Point.of (n : ℕ) (vec : Vec) (rec : Record) : Point := ⟨vec, Row.attrsOf n rec, rec.payload⟩

def Point.withVec (vec : Vec) (p : Point) : Point := { p with vec }

def Point.withRecord (n : ℕ) (rec : Record) (p : Point) : Point := .of n p.vec rec

abbrev Logical := ExternalId → Option Point

def Entry.point (e : Entry) : Point := ⟨e.vec, e.row.attrs, e.row.payload⟩

namespace VDB

variable {ι : Type} {J : ℕ → Column ι → List ColRow → Prop} {config : VDBConfig} {db db' : VDB ι}
  {es : List Entry} {e o : Entry} {ext x : ExternalId} {i iid old : InternalId} {p : Point}

/-- The point under an internal id. -/
def pointAt [ColumnIndex ι] (db : VDB ι) (i : InternalId) : Point where
  vec := db.vectors.getD i []
  attrs := (db.metadata.getRow i).attrs.map AttrValue.carried
  payload := (db.metadata.getRow i).payload

def logical [ColumnIndex ι] (db : VDB ι) : Logical := fun x => (db.extToInt x).map db.pointAt

/-- A live entry with this id has this point. -/
def Denotes (es : List Entry) (x : ExternalId) (p : Point) : Prop :=
  ∃ (i : InternalId) (e : Entry), es[i]? = some e ∧ e.isLive = true ∧ e.ext = x ∧ e.point = p

theorem getRow_row [ColumnIndex ι] {schema : List AttrSpec} {s : MetadataStore ι} {rows : List Row}
    {r : Row} (h : s.Holds J schema rows) (hok : ∀ a c rows, J a c rows → c.Ok rows)
    (hi : rows[i]? = some r) :
    (s.getRow i).attrs.map AttrValue.carried = r.attrs ∧ (s.getRow i).payload = r.payload := by
  constructor
  · have harity := h.arity r (List.mem_of_getElem? hi)
    refine List.ext_getElem (by simp [MetadataStore.getRow, h.columns, harity]) fun a h1 h2 => ?_
    have ha : a < s.columns.length := by simpa [MetadataStore.getRow] using h1
    have hcol := hok _ _ _ (h.column a _ (List.getElem?_eq_getElem ha))
    have hget := (hcol.stores_at (MetadataStore.col_of_getElem hi a)).get hcol.dict
    simp only [MetadataStore.getRow, List.getElem_map]
    rw [hget, Row.attr, List.getD_eq_getElem _ _ h2]
  · exact MetadataStore.getD_of_getElem (by rw [h.payload, List.getElem?_map, hi]; rfl) []

theorem Holds.pointAt [ColumnIndex ι] (h : db.Holds J config es)
    (hok : ∀ a c rows, J a c rows → c.Ok rows) (hi : es[i]? = some e) : db.pointAt i = e.point := by
  obtain ⟨hattrs, hpayload⟩ := getRow_row h.metadata hok (getElem?_row hi)
  unfold VDB.pointAt Entry.point
  rw [hattrs, hpayload, h.vectors,
    MetadataStore.getD_of_getElem (x := e.vec) (by rw [List.getElem?_map, hi]; rfl)]

/-- The logical database is that of the live entries. -/
theorem Holds.logical_iff [ColumnIndex ι] (h : db.Holds J config es)
    (hok : ∀ a c rows, J a c rows → c.Ok rows) : db.logical x = some p ↔ Denotes es x p := by
  unfold VDB.logical Denotes
  rw [Option.map_eq_some_iff]
  constructor
  · rintro ⟨i, hx, rfl⟩
    obtain ⟨e, hi, hlive, hext⟩ := (h.map x i).1 hx
    exact ⟨i, e, hi, hlive, hext, (h.pointAt hok hi).symm⟩
  · rintro ⟨i, e, hi, hlive, hext, rfl⟩
    exact ⟨i, (h.map x i).2 ⟨e, hi, hlive, hext⟩, h.pointAt hok hi⟩

theorem Holds.logical_none [ColumnIndex ι] (h : db.Holds J config es) (hx : ∀ i, ¬ Lives es x i) :
    db.logical x = none := by
  unfold VDB.logical
  cases hm : db.extToInt x with
  | none => rfl
  | some i => exact absurd ((h.map x i).1 hm) (hx i)

theorem Holds.logical_some [ColumnIndex ι] (h : db.Holds J config es)
    (hok : ∀ a c rows, J a c rows → c.Ok rows) (hi : es[i]? = some e) (hlive : e.isLive = true)
    (hext : e.ext = x) : db.logical x = some e.point :=
  (h.logical_iff hok).2 ⟨i, e, hi, hlive, hext, rfl⟩

/-- Two databases are logically the same, but for what `f` says of one id. -/
theorem logical_eq [ColumnIndex ι] {es' : List Entry} {v : Option Point} (h : db.Holds J config es)
    (h' : db'.Holds J config es') (hok : ∀ a c rows, J a c rows → c.Ok rows)
    (hne : ∀ x p, x ≠ ext → (Denotes es' x p ↔ Denotes es x p))
    (heq : ∀ p, Denotes es' ext p ↔ v = some p) :
    db'.logical = Function.update db.logical ext v := by
  funext x
  refine Option.ext fun p => ?_
  rw [h'.logical_iff hok, Function.update_apply]
  split_ifs with hx
  · subst hx
    exact heq p
  · rw [hne x p hx, h.logical_iff hok]

theorem denotes_append (he : e.isLive = false) : Denotes (es ++ [e]) x p ↔ Denotes es x p := by
  constructor
  · rintro ⟨i, e', hi, hlive, hext, hp⟩
    obtain ⟨e'', hi', hlive', hext'⟩ := (lives_append x i he).1 ⟨e', hi, hlive, hext⟩
    have hlt := (List.getElem?_eq_some_iff.1 hi').1
    rw [List.getElem?_append_left hlt] at hi
    exact ⟨i, e', hi, hlive, hext, hp⟩
  · rintro ⟨i, e', hi, hlive, hext, hp⟩
    have hlt := (List.getElem?_eq_some_iff.1 hi).1
    exact ⟨i, e', (List.getElem?_append_left hlt).trans hi, hlive, hext, hp⟩

/-- What is under another id does not depend on an entry with this one. -/
theorem denotes_modify_ne {upd : Entry → Entry} (hi : es[i]? = some e) (hext : e.ext = ext)
    (hupd : (upd e).ext = e.ext) (hx : x ≠ ext) :
    Denotes (es.modify i upd) x p ↔ Denotes es x p := by
  constructor
  · rintro ⟨j, e', hj, hlive, hext', hp⟩
    by_cases hij : i = j
    · subst hij
      rw [getElem?_modify_self hi] at hj
      cases hj
      exact absurd (hext'.symm.trans (hupd.trans hext)) hx
    · rw [getElem?_modify_ne hij] at hj
      exact ⟨j, e', hj, hlive, hext', hp⟩
  · rintro ⟨j, e', hj, hlive, hext', hp⟩
    have hij : i ≠ j := by
      rintro rfl
      rw [hi] at hj
      cases hj
      exact hx (hext'.symm.trans hext)
    exact ⟨j, e', (getElem?_modify_ne hij).trans hj, hlive, hext', hp⟩

/-- Where one entry is the only live one with its id, the id has its point. -/
theorem denotes_of_unique (hi : es[i]? = some e) (hlive : e.isLive = true) (hext : e.ext = x)
    (hunique : ∀ j, Lives es x j → j = i) : Denotes es x p ↔ some e.point = some p := by
  constructor
  · rintro ⟨j, e', hj, hlive', hext', rfl⟩
    obtain rfl := hunique j ⟨e', hj, hlive', hext'⟩
    rw [hi] at hj
    cases hj
    rfl
  · intro hp
    exact ⟨i, e, hi, hlive, hext, Option.some.inj hp⟩

theorem denotes_of_none (hnone : ∀ j, ¬ Lives es x j) : Denotes es x p ↔ none = some p := by
  constructor
  · rintro ⟨j, e', hj, hlive', hext', -⟩
    exact absurd ⟨e', hj, hlive', hext'⟩ (hnone j)
  · rintro ⟨⟩

theorem denotes_filter : Denotes (es.filter Entry.isLive) x p ↔ Denotes es x p := by
  have hmem : ∀ es : List Entry, Denotes es x p ↔
      ∃ e ∈ es, e.isLive = true ∧ e.ext = x ∧ e.point = p := fun es => by
    constructor
    · rintro ⟨i, e, hi, h⟩
      exact ⟨e, List.mem_of_getElem? hi, h⟩
    · rintro ⟨e, he, h⟩
      obtain ⟨i, hi⟩ := List.getElem?_of_mem he
      exact ⟨i, e, hi, h⟩
  rw [hmem, hmem]
  constructor
  · rintro ⟨e, he, h⟩
    exact ⟨e, (List.mem_filter.1 he).1, h⟩
  · rintro ⟨e, he, hlive, h⟩
    exact ⟨e, List.mem_filter.2 ⟨he, hlive⟩, hlive, h⟩

variable [ColumnIndex ι]

/-- The logical database depends on the entries only. -/
theorem Holds.logical_same (h : db.Holds J config es) (h' : db'.Holds J config es)
    (hok : ∀ a c rows, J a c rows → c.Ok rows) : db'.logical = db.logical := by
  funext x
  refine Option.ext fun p => ?_
  rw [h'.logical_iff hok, h.logical_iff hok]

/-- Rows that are not live do not show. -/
theorem Holds.logical_append (h : db.Holds J config es) (h' : db'.Holds J config (es ++ [e]))
    (hok : ∀ a c rows, J a c rows → c.Ok rows) (he : e.isLive = false) :
    db'.logical = db.logical := by
  funext x
  refine Option.ext fun p => ?_
  rw [h'.logical_iff hok, denotes_append he, h.logical_iff hok]

/-- A row that goes live under an id that was not. -/
theorem Holds.logical_publish (h : db.Holds J config es)
    (h' : db'.Holds J config (es.modify i (Entry.withStatus .live)))
    (hok : ∀ a c rows, J a c rows → c.Ok rows) (hi : es[i]? = some e) (hext : e.ext = ext)
    (hnone : ∀ i, ¬ Lives es ext i) :
    db'.logical = Function.update db.logical ext (some e.point) := by
  refine logical_eq h h' hok (fun x p hx => denotes_modify_ne hi hext rfl hx) fun p => ?_
  refine denotes_of_unique (e := e.withStatus .live) (getElem?_modify_self hi) rfl hext fun j hj =>
    ?_
  by_contra hji
  rw [lives_modify hi rfl, if_neg hji] at hj
  exact hnone j hj

/-- A row that goes live in the place of another. -/
theorem Holds.logical_replace (h : db.Holds J config es)
    (h' : db'.Holds J config
      ((es.modify iid (Entry.withStatus .live)).modify old (Entry.withStatus .dead)))
    (hok : ∀ a c rows, J a c rows → c.Ok rows) (hi : es[iid]? = some e) (hext : e.ext = ext)
    (hne : iid ≠ old) (hold : es[old]? = some o) (holive : o.isLive = true) (hoext : o.ext = ext) :
    db'.logical = Function.update db.logical ext (some e.point) := by
  have hold₁ : (es.modify iid (Entry.withStatus .live))[old]? = some o :=
    (getElem?_modify_ne hne).trans hold
  refine logical_eq h h' hok (fun x p hx => ?_) fun p => ?_
  · rw [denotes_modify_ne hold₁ hoext rfl hx, denotes_modify_ne hi hext rfl hx]
  · refine denotes_of_unique (e := e.withStatus .live)
      ((getElem?_modify_ne (Ne.symm hne)).trans (getElem?_modify_self hi)) rfl hext fun j hj => ?_
    rw [lives_modify hold₁ rfl] at hj
    split_ifs at hj with hjo
    · exact absurd hj.1 Bool.false_ne_true
    · rw [lives_modify hi rfl] at hj
      split_ifs at hj with hji
      · exact hji
      · exact absurd (h.unique hj ⟨o, hold, holive, hoext⟩) hjo

/-- A live row that is tombstoned. -/
theorem Holds.logical_remove (h : db.Holds J config es)
    (h' : db'.Holds J config (es.modify i (Entry.withStatus .dead)))
    (hok : ∀ a c rows, J a c rows → c.Ok rows) (hlives : Lives es ext i) :
    db'.logical = Function.update db.logical ext none := by
  obtain ⟨e, hi, hlive, hext⟩ := hlives
  refine logical_eq h h' hok (fun x p hx => denotes_modify_ne hi hext rfl hx) fun p => ?_
  refine denotes_of_none fun j hj => ?_
  rw [lives_modify hi rfl] at hj
  split_ifs at hj with hji
  · exact absurd hj.1 Bool.false_ne_true
  · exact hji (h.unique hj ⟨e, hi, hlive, hext⟩)

/-- A live row that is overwritten. -/
theorem Holds.logical_setMetadata {n : ℕ} {rec : Record} (h : db.Holds J config es)
    (h' : db'.Holds J config (es.modify i (Entry.withRecord n rec)))
    (hok : ∀ a c rows, J a c rows → c.Ok rows) (hlives : Lives es ext i) :
    db'.logical = Function.update db.logical ext
      ((db.logical ext).map (Point.withRecord n rec)) := by
  obtain ⟨e, hi, hlive, hext⟩ := hlives
  rw [h.logical_some hok hi hlive hext]
  refine logical_eq h h' hok (fun x p hx => denotes_modify_ne hi hext rfl hx) fun p => ?_
  refine denotes_of_unique (getElem?_modify_self hi) hlive hext fun j hj => ?_
  by_contra hji
  rw [lives_modify hi rfl, if_neg hji] at hj
  exact hji (h.unique hj ⟨e, hi, hlive, hext⟩)

/-- Compaction does not show. -/
theorem Holds.logical_compact (h : db.Holds J config es)
    (h' : db'.Holds J config (es.filter Entry.isLive))
    (hok : ∀ a c rows, J a c rows → c.Ok rows) : db'.logical = db.logical := by
  funext x
  refine Option.ext fun p => ?_
  rw [h'.logical_iff hok, denotes_filter, h.logical_iff hok]

end VDB

end Database

end Vdb
