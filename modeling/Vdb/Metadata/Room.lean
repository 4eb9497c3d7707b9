import Vdb.Metadata.Keys

/-!
# Room in the indexes

Publishing a row puts a pair into the index of each column in which the row has a value, one column
after the other, and an index whose arena is full throws.  `MetadataStore.HasRoom` asks the indexes
beforehand.

* `MetadataStore.Holds.markLive_returns_iff` : a row can be published just if there is room for it.
-/

namespace Vdb

namespace Metadata

variable {ι : Type} {f : ℕ → Column ι → Outcome (Column ι) Unit} {cs : List (Column ι)}

/-- A loop returns if every column does. -/
theorem forColumns_returns_iff {k : ℕ} : (forColumns f k cs).Returns ↔
    ∀ (a : ℕ) (c : Column ι), cs[a]? = some c → (f (k + a) c).Returns := by
  induction cs generalizing k with
  | nil => exact ⟨fun _ a c hc => (by cases hc), fun _ => trivial⟩
  | cons c cs ih =>
    have hsplit : (∀ (a : ℕ) (c' : Column ι), (c :: cs)[a]? = some c' → (f (k + a) c').Returns) ↔
        (f k c).Returns ∧
          ∀ (a : ℕ) (c' : Column ι), cs[a]? = some c' → (f (k + 1 + a) c').Returns := by
      constructor
      · refine fun h => ⟨h 0 c rfl, fun a c' hc' => ?_⟩
        rw [Nat.add_right_comm]
        exact h (a + 1) c' hc'
      · rintro ⟨hfirst, hrest⟩ a c' hc'
        cases a with
        | zero =>
          cases hc'
          exact hfirst
        | succ a =>
          have := hrest a c' hc'
          rwa [Nat.add_right_comm] at this
    rw [hsplit, ← ih, forColumns]
    cases hc : f k c with
    | ok _ c' => exact Outcome.returns_mapState.trans ⟨fun h => ⟨trivial, h⟩, And.right⟩
    | error e c' => exact ⟨False.elim, And.left⟩

namespace Column

variable {c c' : Column ι} {rows : List ColRow} {v : AttrValue} {i : InternalId} {b : Bool}

/-- The index of the column, if it has one, has room for this value. -/
def HasRoom [ColumnIndex ι] (c : Column ι) (v : AttrValue) (i : InternalId) : Prop :=
  ∀ t ∈ c.index, v.isNull = false →
    (ColumnIndex.insert t (sortableKey c.type v.raw) i).Returns

instance decidableHasRoom [ColumnIndex ι] (c : Column ι) (v : AttrValue) (i : InternalId) :
    Decidable (c.HasRoom v i) :=
  inferInstanceAs (Decidable (∀ t ∈ c.index, v.isNull = false →
    (ColumnIndex.insert t (sortableKey c.type v.raw) i).Returns))

theorem hasRoom_congr [ColumnIndex ι] (htype : c'.type = c.type) (hindex : c'.index = c.index) :
    c'.HasRoom v i ↔ c.HasRoom v i := by
  unfold HasRoom
  rw [htype, hindex]

/-- The index is asked about the bits of the value. -/
theorem hasRoom_value [ColumnIndex ι] {w : AttrValue} (h : c.index.isSome = true →
    v.isNull = w.isNull ∧ (w.isNull = false → v.raw = w.raw)) : c.HasRoom v i ↔ c.HasRoom w i := by
  unfold HasRoom
  refine forall_congr' fun t => forall_congr' fun ht => ?_
  obtain ⟨hnull, hraw⟩ := h (Option.isSome_iff_exists.2 ⟨t, ht⟩)
  rw [hnull]
  exact forall_congr' fun hw => by rw [hraw hw]

variable [ColumnIndex ι] [LawfulColumnIndex ι] {indexed : Bool}

theorem Keyed.adjust_returns_iff (h : c.Keyed indexed rows) (hn : indexed = true → c.Numeric)
    (hi : rows[i]? = some (b, v)) : (c.adjust i true).Returns ↔ c.HasRoom v i := by
  have hsame := sameRows_adjustCount c i true
  rw [← hasRoom_congr hsame.type (index_adjustCount c i true), Column.adjust]
  have hcount := h.same hsame (index_adjustCount c i true)
  have hnumeric := fun hx => (numeric_congr hsame.type).2 (hn hx)
  generalize c.adjustCount i true = c₁ at hcount hnumeric
  unfold Column.adjustIndex HasRoom
  cases hindex : c₁.index with
  | none => exact ⟨fun _ t ht => (by cases ht), fun _ => trivial⟩
  | some t =>
    have hsome : indexed = true := hcount.indexed.symm.trans (by rw [hindex]; rfl)
    obtain ⟨hpresent, hraw⟩ := hcount.stores (hnumeric hsome) i (b, v) hi
    have hp : c₁.isPresent i = !v.isNull := hpresent
    have hd : v.isNull = false → c₁.data.getD i 0 = v.raw := hraw
    dsimp only
    rw [hp]
    cases hv : v.isNull with
    | true => exact ⟨fun _ t _ hnull => (by cases hnull), fun _ => trivial⟩
    | false =>
      rw [hd hv, if_neg (by decide), if_pos rfl, Outcome.returns_mapState]
      exact ⟨fun hins t' ht' _ => by cases ht'; exact hins, fun hins => hins t rfl rfl⟩

end Column

namespace MetadataStore

variable [ColumnIndex ι] {J : ℕ → Column ι → List ColRow → Prop} {schema : List AttrSpec}
  {s s' : MetadataStore ι} {rows : List Row} {r : Row} {rec : Record} {i src : InternalId}
  {v w : ℕ → AttrValue}

/-- The indexes have room for a row of these values. -/
def HasRoom (s : MetadataStore ι) (v : ℕ → AttrValue) (i : InternalId) : Prop :=
  ∀ (a : ℕ) (c : Column ι), s.columns[a]? = some c → c.HasRoom (v a) i

instance decidableHasRoom (s : MetadataStore ι) (v : ℕ → AttrValue) (i : InternalId) :
    Decidable (s.HasRoom v i) :=
  decidable_of_iff (∀ a : Fin s.columns.length, s.columns[a].HasRoom (v a) i)
    ⟨fun h a c hc => by
      obtain ⟨hlt, rfl⟩ := List.getElem?_eq_some_iff.1 hc
      exact h ⟨a, hlt⟩,
    fun h a => h a _ (List.getElem?_eq_getElem a.2)⟩

omit [ColumnIndex ι] in
/-- A column that is declared indexed has keys. -/
theorem Holds.numeric (h : s.Holds J schema rows) {a : ℕ} {c : Column ι}
    (hc : s.columns[a]? = some c) (hi : ((schema[a]?).map AttrSpec.indexed).getD false = true) :
    c.Numeric := by
  obtain ⟨spec, hspec, htype⟩ := h.types a c hc
  rw [hspec] at hi
  unfold Column.Numeric
  rw [htype]
  exact checkSchema_indexed h.checked hspec hi

/-- A change of the columns that leaves their indexes alone. -/
theorem hasRoom_columns {g : ℕ → Column ι → Column ι}
    (hg : ∀ a c, (g a c).type = c.type ∧ (g a c).index = c.index)
    (h : ∀ a, s'.columns[a]? = (s.columns[a]?).map (g a)) : s'.HasRoom v i ↔ s.HasRoom v i := by
  have hcongr := fun a c => Column.hasRoom_congr (v := v a) (i := i) (hg a c).1 (hg a c).2
  refine forall_congr' fun a => ?_
  rw [h a]
  cases s.columns[a]? with
  | none => exact ⟨fun _ c hc => (by cases hc), fun _ c hc => (by cases hc)⟩
  | some c =>
    constructor
    · rintro hroom _ ⟨⟩
      exact (hcongr a c).1 (hroom _ rfl)
    · rintro hroom _ ⟨⟩
      exact (hcongr a c).2 (hroom _ rfl)

/-- A new row waits for its publication outside of the indexes. -/
theorem hasRoom_appendRow (he : s.appendRow rec = .ok () s') : s'.HasRoom v i ↔ s.HasRoom v i := by
  unfold MetadataStore.appendRow at he
  split at he
  · cases he
  · cases he
    refine hasRoom_columns (g := fun a c => (c.appendValue (rec.attr a)).addPosting s.rows)
      (fun a c => ⟨?_, ?_⟩) fun a => ?_
    · rw [Column.type_addPosting, Column.type_appendValue]
    · rw [Column.index_addPosting, Column.index_appendValue]
    · rw [List.getElem?_map, List.getElem?_mapIdx, Option.map_map]
      rfl

theorem hasRoom_appendRowCopy : (s.appendRowCopy src).HasRoom v i ↔ s.HasRoom v i := by
  refine hasRoom_columns (g := fun _ c => (c.appendCopy src).addPosting s.rows)
    (fun _ c => ⟨?_, ?_⟩) fun a => ?_
  · rw [Column.type_addPosting, Column.appendCopy_eq, Column.type_push]
  · rw [Column.index_addPosting, Column.appendCopy_eq, Column.index_push]
  · rw [MetadataStore.appendRowCopy, List.getElem?_map, List.getElem?_map, Option.map_map]
    rfl

variable [LawfulColumnIndex ι]

/-- The columns as their indexes see them. -/
abbrev KeyedIn (schema : List AttrSpec) (a : ℕ) (c : Column ι) (rows : List ColRow) : Prop :=
  c.Keyed (((schema[a]?).map AttrSpec.indexed).getD false) rows

/-- A record has the values of its row. -/
theorem Holds.hasRoom_record (h : s.Holds (KeyedIn schema) schema rows)
    (hv : validate schema rec = .ok ()) :
    s.HasRoom (Row.ofRecord schema.length rec).attr i ↔ s.HasRoom rec.attr i := by
  refine forall_congr' fun a => forall_congr' fun c => forall_congr' fun hc => ?_
  refine Column.hasRoom_value fun hindex => ?_
  have hn := h.numeric hc ((h.column a c hc).indexed.symm.trans hindex)
  rw [show (Row.ofRecord schema.length rec).attr a = (rec.attr a).carried from
    attr_attrsOf (h.lt hc), AttrValue.isNull_carried]
  refine ⟨rfl, fun hnull => ?_⟩
  have htype := (h.typed hv hc).resolve_left (by rw [hnull]; exact Bool.false_ne_true)
  refine AttrValue.raw_carried ?_ ?_ ?_
  all_goals
    rw [htype]
    rcases hn with hn | hn <;> rw [hn] <;> decide

/-- A row has the values it is read with. -/
theorem Holds.hasRoom_get (h : s.Holds (KeyedIn schema) schema rows) (hi : rows[src]? = some r) :
    s.HasRoom r.attr i ↔ s.HasRoom (s.get src) i := by
  refine forall_congr' fun a => forall_congr' fun c => forall_congr' fun hc => ?_
  refine Column.hasRoom_value fun hindex => ?_
  have hkeyed := h.column a c hc
  have hn := h.numeric hc (hkeyed.indexed.symm.trans hindex)
  obtain ⟨hnull, hget⟩ := Column.get_raw hn (hkeyed.stores hn src _ (col_of_getElem hi a))
  rw [show s.get src a = c.get src by rw [MetadataStore.get, column_of_getElem hc]]
  exact ⟨hnull.symm, fun hfull => by rw [hget (hnull.symm.trans hfull)]⟩

/-- **Publishing a row** returns just if there is room for it. -/
theorem Holds.markLive_returns_iff (h : s.Holds (KeyedIn schema) schema rows)
    (hi : rows[i]? = some r) : (s.markLive i).Returns ↔ s.HasRoom r.attr i := by
  unfold MetadataStore.markLive HasRoom
  rw [Outcome.returns_mapState, forColumns_returns_iff]
  refine forall_congr' fun a => forall_congr' fun c => forall_congr' fun hc => ?_
  exact (h.column a c hc).adjust_returns_iff (h.numeric hc) (col_of_getElem hi a)

end MetadataStore

end Metadata

end Vdb
