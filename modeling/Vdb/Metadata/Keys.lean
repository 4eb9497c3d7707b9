import Vdb.Metadata.Sizes
import Vdb.Metadata.Index
import Mathlib.Algebra.Order.Group.Multiset
import Mathlib.Data.List.Induction

/-!
# The pairs in an index

What the B+-tree of an Int64 or Float64 column holds: one pair of a sortable key and a row for each
live row with a value (`keysOf`).  `Column.Keyed` is kept by every operation of the store, whatever
the other columns hold, as long as the index takes every pair (`TotalColumnIndex`).
-/

namespace Vdb

namespace Metadata

/-! ### Sortable keys -/

theorem xor_two_pow {n k : ℕ} (h : n < 2 ^ k) : n ^^^ 2 ^ k = 2 ^ k + n := by
  refine Nat.eq_of_testBit_eq fun j => ?_
  rw [Nat.testBit_xor, Nat.testBit_two_pow]
  rcases lt_trichotomy j k with hj | rfl | hj
  · rw [Nat.testBit_two_pow_add_gt hj, decide_eq_false (by omega), Bool.xor_false]
  · rw [Nat.testBit_two_pow_add_eq, decide_eq_true rfl, Bool.xor_true]
  · have hlt : 2 ^ k + n < 2 ^ j := by
      have := Nat.pow_le_pow_right (n := 2) two_pos hj
      rw [Nat.succ_eq_add_one, pow_succ] at this
      omega
    rw [Nat.testBit_lt_two_pow hlt, decide_eq_false (by omega), Bool.xor_false,
      Nat.testBit_lt_two_pow (by omega)]

/-- The key of an Int64 is its distance from the least one. -/
theorem toNat_sortableKey (x : Int64) :
    ((sortableKey .int64 x.toUInt64).toNat : ℤ) = x.toInt + 2 ^ 63 := by
  have hx : x.toInt = if 2 * x.toUInt64.toNat < 2 ^ 64 then (x.toUInt64.toNat : ℤ)
      else (x.toUInt64.toNat : ℤ) - 2 ^ 64 := BitVec.toInt_eq_toNat_cond x.toBitVec
  have hlt : x.toUInt64.toNat < 2 ^ 64 := x.toUInt64.toNat_lt
  rw [sortableKey, if_pos rfl, UInt64.toNat_xor, hx]
  change ((x.toUInt64.toNat ^^^ 2 ^ 63 : ℕ) : ℤ) = _
  generalize x.toUInt64.toNat = n at hlt
  split_ifs with h
  · rw [xor_two_pow (by omega)]
    omega
  · obtain ⟨m, rfl⟩ := Nat.exists_eq_add_of_le (show 2 ^ 63 ≤ n by omega)
    rw [← xor_two_pow (by omega), Nat.xor_assoc, Nat.xor_self, Nat.xor_zero,
      xor_two_pow (by omega)]
    omega

/-- The keys of Int64 values are in their order. -/
theorem sortableKey_le {x y : Int64} :
    sortableKey .int64 x.toUInt64 ≤ sortableKey .int64 y.toUInt64 ↔ x ≤ y := by
  have hx := toNat_sortableKey x
  have hy := toNat_sortableKey y
  rw [UInt64.le_iff_toNat_le, Int64.le_iff_toInt_le]
  omega

/-! ### Pairs -/

theorem checkSchema_indexed {schema : List AttrSpec} {a : ℕ} {spec : AttrSpec}
    (h : checkSchema schema = .ok ()) (ha : schema[a]? = some spec) (hi : spec.indexed = true) :
    spec.type = .int64 ∨ spec.type = .float64 := by
  induction schema generalizing a with
  | nil => cases ha
  | cons s schema ih =>
    unfold checkSchema at h
    split_ifs at h with hnull hindexed
    cases a with
    | succ a => exact ih h ha
    | zero =>
      cases ha
      by_contra hne
      exact hindexed ⟨hi, fun h => hne (.inl h), fun h => hne (.inr h)⟩

/-- An index that never throws. -/
class TotalColumnIndex (ι : Type) [ColumnIndex ι] : Prop where
  insert_returns : ∀ (t : ι) key id, ∃ t', ColumnIndex.insert t key id = .ok () t'

instance : TotalColumnIndex PairIndex := ⟨fun _ _ _ => ⟨_, rfl⟩⟩

/-- The pair of a row, if it is live and has a value. -/
def keyAt (type : AttrType) (i : InternalId) (r : ColRow) : Multiset (UInt64 × InternalId) :=
  if r.1 && !r.2.isNull then {(sortableKey type r.2.raw, i)} else 0

/-- The pairs of the rows from number `k` on. -/
def keysFrom (type : AttrType) : ℕ → List ColRow → Multiset (UInt64 × InternalId)
  | _, [] => 0
  | k, r :: rows => keyAt type k r + keysFrom type (k + 1) rows

def keysOf (type : AttrType) (rows : List ColRow) : Multiset (UInt64 × InternalId) :=
  keysFrom type 0 rows

section Keys

variable {type : AttrType} {rows : List ColRow} {r r' : ColRow} {v : AttrValue} {i k : ℕ}

@[simp] theorem keyAt_dead (type : AttrType) (i : InternalId) (v : AttrValue) :
    keyAt type i (false, v) = 0 := rfl

theorem keyAt_null (hv : v.isNull = true) (b : Bool) : keyAt type i (b, v) = 0 := by
  unfold keyAt
  rw [hv, Bool.not_true, Bool.and_false, if_neg Bool.false_ne_true]

theorem keyAt_live (hv : v.isNull = false) :
    keyAt type i (true, v) = {(sortableKey type v.raw, i)} := by
  unfold keyAt
  rw [hv, Bool.not_false, Bool.and_true, if_pos rfl]

theorem keysFrom_append (type : AttrType) (k : ℕ) (rows rows' : List ColRow) :
    keysFrom type k (rows ++ rows') =
      keysFrom type k rows + keysFrom type (k + rows.length) rows' := by
  induction rows generalizing k with
  | nil => exact (zero_add _).symm
  | cons r rows ih =>
    rw [List.cons_append, keysFrom, keysFrom, ih, List.length_cons,
      show k + 1 + rows.length = k + (rows.length + 1) by omega, add_assoc]

theorem keysOf_concat (type : AttrType) (rows : List ColRow) (r : ColRow) :
    keysOf type (rows ++ [r]) = keysOf type rows + keyAt type rows.length r := by
  unfold keysOf
  rw [keysFrom_append, Nat.zero_add, keysFrom, keysFrom, add_zero]

theorem keysFrom_set (type : AttrType) (k : ℕ) (hi : rows[i]? = some r) (r' : ColRow) :
    keysFrom type k (rows.set i r') + keyAt type (k + i) r =
      keysFrom type k rows + keyAt type (k + i) r' := by
  induction rows generalizing i k with
  | nil => cases hi
  | cons a rows ih =>
    cases i with
    | zero =>
      cases hi
      rw [List.set_cons_zero, keysFrom, keysFrom, Nat.add_zero]
      ac_rfl
    | succ i =>
      rw [List.set_cons_succ, keysFrom, keysFrom, add_assoc, add_assoc,
        show k + (i + 1) = k + 1 + i by omega, ih (k + 1) hi]

/-- Changing one row changes its own pair. -/
theorem keysOf_set (type : AttrType) (hi : rows[i]? = some r) (r' : ColRow) :
    keysOf type (rows.set i r') + keyAt type i r = keysOf type rows + keyAt type i r' := by
  have := keysFrom_set type 0 hi r'
  rwa [Nat.zero_add] at this

/-- Rows that are not live have no pairs. -/
theorem keysOf_unpublished (type : AttrType) (rows : List ColRow) :
    keysOf type (Column.unpublished rows) = 0 := by
  have hall : ∀ k, keysFrom type k (Column.unpublished rows) = 0 := by
    induction rows with
    | nil => exact fun _ => rfl
    | cons r rows ih => exact fun k => (congrArg₂ _ (keyAt_dead ..) (ih _)).trans (add_zero _)
  exact hall 0

/-- The pairs, row number by row number. -/
theorem keysOf_eq_map (type : AttrType) {p : InternalId → Bool}
    {g : InternalId → UInt64 × InternalId}
    (h : ∀ i r, rows[i]? = some r → keyAt type i r = if p i then {g i} else 0) :
    keysOf type rows =
      (((List.range rows.length).filter p).map g : List (UInt64 × InternalId)) := by
  induction rows using List.reverseRecOn with
  | nil => rfl
  | append_singleton rows r ih =>
    have hrows := ih fun i r' hi => h i r'
      ((List.getElem?_append_left (List.getElem?_eq_some_iff.1 hi).1).trans hi)
    rw [keysOf_concat, hrows, h _ r List.getElem?_concat_length, List.length_append,
      List.length_singleton, List.range_succ, List.filter_append, List.map_append,
      ← Multiset.coe_add, List.filter_singleton]
    cases p rows.length <;> rfl

end Keys

namespace Column

variable {ι : Type} {c c' : Column ι} {rows : List ColRow} {v w : AttrValue} {i n : ℕ} {b : Bool}

/-- The columns that can have an index. -/
def Numeric (c : Column ι) : Prop := c.type = .int64 ∨ c.type = .float64

/-- The cell holds a value by its raw bits. -/
def Raw (x : Cell) (v : AttrValue) : Prop :=
  x.present = !v.isNull ∧ (v.isNull = false → x.data = v.raw)

theorem raw_cellOf (hn : c.Numeric) (hv : v.isNull = true ∨ v.type = c.type) :
    (c.cellOf v).1 = c ∧ (c.cellOf v).2.Plain ∧ Raw (c.cellOf v).2 v.carried := by
  have htext : c.type ≠ .text := by rcases hn with h | h <;> simp [h]
  unfold cellOf
  by_cases hnull : v.isNull = true
  · rw [if_pos hnull]
    exact ⟨rfl, ⟨rfl, rfl, rfl⟩, by simp [Raw, hnull]⟩
  · have htype : v.type = c.type := hv.resolve_left hnull
    have htag : v.type ≠ .tag := by rcases hn with h | h <;> simp [htype, h]
    rw [if_neg hnull, if_neg htext, if_neg htag]
    refine ⟨rfl, ⟨rfl, rfl, rfl⟩, by simp [hnull], fun _ => ?_⟩
    exact (AttrValue.raw_carried (by simpa [AttrValue.isNull] using hnull) htag
      (htype ▸ htext)).symm

theorem get_raw (hn : c.Numeric) (h : Raw (c.cellAt i) v) :
    (c.get i).isNull = v.isNull ∧
    (v.isNull = false → c.get i = { type := c.type, raw := v.raw }) := by
  have htypes : c.type ≠ .tag ∧ c.type ≠ .text ∧ c.type ≠ .null := by
    rcases hn with h | h <;> simp [h]
  obtain ⟨htag, htext, hnull⟩ := htypes
  obtain ⟨hpresent, hraw⟩ := h
  unfold get isPresent
  have hp : c.present.getD i false = !v.isNull := hpresent
  have hd : v.isNull = false → c.data.getD i 0 = v.raw := hraw
  rw [hp, if_neg htag, if_neg htext]
  cases hv : v.isNull with
  | true => exact ⟨rfl, nofun⟩
  | false =>
    rw [hd hv]
    refine ⟨?_, fun _ => rfl⟩
    simp [AttrValue.isNull, hnull]

/-- The rows, their values and the index of a column, where it can have one. -/
structure Keyed [ColumnIndex ι] [LawfulColumnIndex ι] (indexed : Bool) (c : Column ι)
    (rows : List ColRow) : Prop where
  sized : c.Sized rows.length
  indexed : c.index.isSome = indexed
  stores : c.Numeric → ∀ i r, rows[i]? = some r → Raw (c.cellAt i) r.2
  index : c.Numeric → ∀ t ∈ c.index, LawfulColumnIndex.Has t (keysOf c.type rows)

variable [ColumnIndex ι]

omit [ColumnIndex ι] in
theorem cellAt_sameRows (h : c.SameRows c') (i : InternalId) : c'.cellAt i = c.cellAt i := by
  unfold cellAt
  rw [h.data, h.present, h.textTerms, h.docLen, h.rawText]

omit [ColumnIndex ι] in
theorem numeric_congr (h : c'.type = c.type) : c'.Numeric ↔ c.Numeric := by
  unfold Numeric
  rw [h]

variable [LawfulColumnIndex ι] {indexed : Bool}

/-- The pairs of a column, by what `get` says. -/
theorem Keyed.keysOf_eq (h : c.Keyed indexed rows) (hn : c.Numeric) (live : InternalId → Bool)
    (hlive : ∀ i r, rows[i]? = some r → live i = r.1) :
    keysOf c.type rows = (((List.range rows.length).filter fun i =>
      !(c.get i).isNull && live i).map fun i => (sortableKey c.type (c.get i).raw, i) :
        List (UInt64 × InternalId)) := by
  refine keysOf_eq_map c.type fun i r hi => ?_
  obtain ⟨hnull, hget⟩ := get_raw hn (h.stores hn i r hi)
  unfold keyAt
  rw [hnull, hlive i r hi, Bool.and_comm]
  split_ifs with hr
  · rw [hget (by simpa using (Bool.and_eq_true_iff.1 hr).1)]
  · rfl

theorem Keyed.same (h : c.Keyed indexed rows) (hs : c.SameRows c') (hindex : c'.index = c.index) :
    c'.Keyed indexed rows where
  sized := hs.sized h.sized
  indexed := hindex ▸ h.indexed
  stores hn i r hr := cellAt_sameRows hs i ▸ h.stores ((numeric_congr hs.type).1 hn) i r hr
  index hn t ht := by
    rw [hindex] at ht
    exact hs.type.symm ▸ h.index ((numeric_congr hs.type).1 hn) t ht

theorem Keyed.addPosting (h : c.Keyed indexed rows) (i : InternalId) :
    (c.addPosting i).Keyed indexed rows :=
  h.same (sameRows_addPosting c i) (index_addPosting c i)

/-- A pending row. -/
theorem Keyed.push (h : c.Keyed indexed rows) {x : Cell} (hx : c.type ≠ .text → x.Plain)
    (hraw : c.Numeric → Raw x v) : (c.push x).Keyed indexed (rows ++ [(false, v)]) where
  sized := by
    rw [List.length_append]
    exact h.sized.push x
  indexed := (index_push c x).symm ▸ h.indexed
  stores hn i r hr := by
    have hn' := (numeric_congr (type_push c x)).1 hn
    rw [h.sized.cellAt_push hx (Nat.lt_succ_iff.1
      (by simpa using (List.getElem?_eq_some_iff.1 hr).1))]
    split_ifs with hi
    · subst hi
      rw [List.getElem?_concat_length] at hr
      cases hr
      exact hraw hn'
    · refine h.stores hn' i r ?_
      rwa [List.getElem?_append_left (by
        have := (List.getElem?_eq_some_iff.1 hr).1
        rw [List.length_append, List.length_singleton] at this
        omega)] at hr
  index hn t ht := by
    rw [type_push, keysOf_concat, keyAt_dead, add_zero]
    exact h.index ((numeric_congr (type_push c x)).1 hn) t (index_push c x ▸ ht)

/-- A row that is not live is overwritten. -/
theorem Keyed.put (h : c.Keyed indexed rows) {x : Cell} (hx : c.type ≠ .text → x.Plain)
    (hi : rows[i]? = some (false, w)) (hraw : c.Numeric → Raw x v) :
    (c.put i x).Keyed indexed (rows.set i (false, v)) where
  sized := by
    rw [List.length_set]
    exact h.sized.put i x
  indexed := (index_put c i x).symm ▸ h.indexed
  stores hn j r hr := by
    have hn' := (numeric_congr (type_put c i x)).1 hn
    rw [h.sized.cellAt_put hx (List.getElem?_eq_some_iff.1 hi).1]
    rw [List.getElem?_set] at hr
    by_cases hij : i = j
    · subst hij
      rw [if_pos rfl, if_pos (List.getElem?_eq_some_iff.1 hi).1] at hr
      cases hr
      rw [if_pos rfl]
      exact hraw hn'
    · rw [if_neg hij] at hr
      rw [if_neg (Ne.symm hij)]
      exact h.stores hn' j r hr
  index hn t ht := by
    have hkeys := keysOf_set c.type hi (false, v)
    rw [keyAt_dead, keyAt_dead, add_zero, add_zero] at hkeys
    rw [type_put, hkeys]
    exact h.index ((numeric_congr (type_put c i x)).1 hn) t (index_put c i x ▸ ht)

/-- A row is put into the index, or taken out of it. -/
theorem Keyed.adjustIndex (h : c.Keyed indexed rows) (hi : rows[i]? = some (!b, v))
    (he : c.adjustIndex i b = .ok () c') : c'.Keyed indexed (rows.set i (b, v)) := by
  obtain ⟨t', hstate⟩ := exists_adjustIndex c i b
  have hsame : c.SameRows c' := by
    rw [he] at hstate
    rw [show c' = { c with index := t' } from hstate]
    exact ⟨rfl, rfl, rfl, rfl, rfl, rfl⟩
  have hlt := (List.getElem?_eq_some_iff.1 hi).1
  have hstores : c'.Numeric → ∀ j r, (rows.set i (b, v))[j]? = some r → Raw (c'.cellAt j) r.2 := by
    intro hn j r hr
    have hn' := (numeric_congr hsame.type).1 hn
    rw [cellAt_sameRows hsame]
    rw [List.getElem?_set] at hr
    by_cases hij : i = j
    · subst hij
      rw [if_pos rfl, if_pos hlt] at hr
      cases hr
      exact h.stores hn' i (!b, v) hi
    · rw [if_neg hij] at hr
      exact h.stores hn' j r hr
  have hsized : c'.Sized (rows.set i (b, v)).length := by
    rw [List.length_set]
    exact hsame.sized h.sized
  have hkeys := keysOf_set c.type hi (b, v)
  unfold Column.adjustIndex at he
  cases hindex : c.index with
  | none =>
    rw [hindex] at he
    cases he
    exact ⟨hsized, h.indexed, hstores, fun _ t ht => by
      rw [hindex] at ht
      cases ht⟩
  | some t =>
    rw [hindex] at he
    dsimp only at he
    by_cases hp : c.isPresent i = true
    · rw [if_neg (not_not.2 hp)] at he
      have hpair : c.Numeric → v.isNull = false ∧ c.data.getD i 0 = v.raw := by
        intro hn
        obtain ⟨h1, h2⟩ := h.stores hn i _ hi
        have hv : v.isNull = false := by simpa using h1.symm.trans hp
        exact ⟨hv, h2 hv⟩
      cases b with
      | true =>
        rw [if_pos rfl] at he
        obtain ⟨t₁, ht₁, rfl⟩ := Outcome.mapState_ok he
        refine ⟨hsized, h.indexed.symm ▸ hindex ▸ rfl, hstores, fun hn t₂ ht₂ => ?_⟩
        obtain ⟨hv, hraw⟩ := hpair hn
        cases ht₂
        rw [Bool.not_true, keyAt_dead, keyAt_live hv, add_zero, add_comm,
          Multiset.singleton_add] at hkeys
        rw [hsame.type, hkeys, ← hraw]
        exact LawfulColumnIndex.insert (h.index hn t hindex) ht₁
      | false =>
        rw [if_neg Bool.false_ne_true] at he
        cases he
        refine ⟨hsized, h.indexed.symm ▸ hindex ▸ rfl, hstores, fun hn t₂ ht₂ => ?_⟩
        obtain ⟨hv, hraw⟩ := hpair hn
        cases ht₂
        rw [Bool.not_false, keyAt_dead, keyAt_live hv, add_zero, add_comm,
          Multiset.singleton_add] at hkeys
        have hremove := LawfulColumnIndex.remove (sortableKey c.type v.raw) i (h.index hn t hindex)
        rw [← hkeys, Multiset.erase_cons_head] at hremove
        rw [hsame.type, hraw]
        exact hremove
    · -- a null has no pair
      rw [if_pos hp] at he
      cases he
      refine ⟨hsized, h.indexed, hstores, fun hn t₂ ht₂ => ?_⟩
      have hnull : v.isNull = true := by
        have := (h.stores hn i _ hi).1
        simpa [isPresent] using this.symm.trans (Bool.eq_false_iff.2 hp)
      rw [keyAt_null hnull, keyAt_null hnull, add_zero, add_zero] at hkeys
      rw [hkeys]
      exact h.index hn t₂ ht₂

theorem Keyed.adjust (h : c.Keyed indexed rows) (hi : rows[i]? = some (!b, v))
    (he : c.adjust i b = .ok () c') : c'.Keyed indexed (rows.set i (b, v)) :=
  (h.same (sameRows_adjustCount c i b) (index_adjustCount c i b)).adjustIndex hi he

/-- The value of a live row is overwritten. -/
theorem Keyed.setRow (h : c.Keyed indexed rows) (hi : rows[i]? = some (true, w))
    (hv : v.isNull = true ∨ v.type = c.type) (he : c.setRow i v = .ok () c') :
    c'.Keyed indexed (rows.set i (true, v.carried)) := by
  have hlt := (List.getElem?_eq_some_iff.1 hi).1
  rw [setRow_eq] at he
  obtain ⟨_, c₃, hadjust, hend⟩ := Outcome.andThen_ok he
  cases hend
  set c₁ := (c.adjust i false).state with hc₁
  have h₁ : c₁.Keyed indexed (rows.set i (false, w)) := h.adjust hi (adjust_false_returns c i)
  have hi₁ : (rows.set i (false, w))[i]? = some (false, w) := by simp [hlt]
  have htype : c₁.type = c.type := type_adjust c i false
  -- the old pair is out of the index, and the new value not in it yet
  have h₂ : (c₁.setValue i v).Keyed indexed (rows.set i (false, v.carried)) := by
    have hsized := h₁.sized.setValue i v
    rw [List.length_set] at hsized
    have hset : c₁.Numeric → c₁.setValue i v = c₁.put i (c₁.cellOf v).2 := fun hn => by
      obtain ⟨hc, -, -⟩ := raw_cellOf (v := v) hn (htype ▸ hv)
      have htext : c₁.type ≠ .text := by rcases hn with h | h <;> simp [h]
      rw [setValue_eq (by rw [h₁.sized.data, List.length_set]; exact hlt)
        (fun ht => absurd ht htext),
        hc]
    have hput : c₁.Numeric → (c₁.setValue i v).Keyed indexed (rows.set i (false, v.carried)) := by
      intro hn
      obtain ⟨-, hplain, hraw⟩ := raw_cellOf (v := v) hn (htype ▸ hv)
      have := h₁.put (fun _ => hplain) hi₁ fun _ => hraw
      rwa [List.set_set, ← hset hn] at this
    have hnumeric := numeric_congr (type_setValue c₁ i v)
    exact
    { sized := by rwa [List.length_set]
      indexed := (index_setValue c₁ i v).symm ▸ h₁.indexed
      stores := fun hn => (hput (hnumeric.1 hn)).stores hn
      index := fun hn => (hput (hnumeric.1 hn)).index hn }
  have hi₂ : (rows.set i (false, v.carried))[i]? = some (!true, v.carried) := by simp [hlt]
  have h₃ := h₂.adjust hi₂ hadjust
  rw [List.set_set] at h₃
  exact h₃.addPosting i

/-- The rows from number `k` on are put into the index. -/
theorem Keyed.fillIndex {k : ℕ} (hlive : ∀ r ∈ rows, r.1 = true) (hk : k + n = rows.length)
    (h : c.Keyed indexed (MetadataStore.publishedTo k rows)) (he : fillIndex n k c = .ok () c') :
    c'.Keyed indexed rows := by
  induction n generalizing k c with
  | zero =>
    cases he
    rwa [MetadataStore.publishedTo_all (by omega)] at h
  | succ n ih =>
    obtain ⟨_, c₁, hadjust, he⟩ := Outcome.andThen_ok he
    have hr : rows[k]? = some rows[k] := List.getElem?_eq_getElem (by omega)
    have hrow : rows[k] = (true, rows[k].2) := Prod.ext (hlive _ (List.getElem_mem _)) rfl
    have hstep := h.adjustIndex (MetadataStore.getElem?_publishedTo hr) hadjust
    rw [← hrow, ← MetadataStore.publishedTo_succ hr] at hstep
    exact ih (by omega) hstep he

/-- The index of a column whose rows are all dead is empty. -/
theorem Keyed.fresh (hs : c.Sized rows.length) (hi : c.index.isSome = indexed)
    (hempty : ∀ t ∈ c.index, t = ColumnIndex.empty) (hdead : keysOf c.type rows = 0)
    (hstores : c.Numeric → ∀ i r, rows[i]? = some r → Raw (c.cellAt i) r.2) :
    c.Keyed indexed rows :=
  ⟨hs, hi, hstores, fun _ t ht => by
    rw [hdead, hempty t ht]
    exact LawfulColumnIndex.empty⟩

theorem Keyed.permute (h : c.Keyed indexed rows) {live : List InternalId}
    (hlive : ∀ i, i ∈ live ↔ ∃ v, rows[i]? = some (true, v)) (he : c.permute live = .ok () c') :
    c'.Keyed indexed (kept rows live) := by
  unfold Column.permute at he
  dsimp only at he
  obtain ⟨p, -, hp⟩ := exists_clearPostings (c.keepRows live)
  obtain ⟨p', -, hp'⟩ := exists_foldl_addPosting (List.range live.length)
    (c.keepRows live).clearPostings
  have hlen : (kept rows live).length = live.length := List.length_map _
  have hall : ∀ r ∈ kept rows live, r.1 = true := by
    intro r hr
    obtain ⟨i, hi, rfl⟩ := List.mem_map.1 hr
    obtain ⟨v, hv⟩ := (hlive i).1 hi
    rw [List.getD_eq_getElem?_getD, hv]
    rfl
  refine Keyed.fillIndex hall ((Nat.zero_add _).trans hlen.symm) ?_ he
  rw [MetadataStore.publishedTo_zero, hp', hp]
  -- a column with the rows kept, and its index emptied
  set y : Column ι := { c.keepRows live with postings := p' } with hy
  have hsame : (c.keepRows live).SameRows y.clearIndex := ⟨rfl, rfl, rfl, rfl, rfl, rfl⟩
  have hindex : y.clearIndex.index = c.index.map fun _ => ColumnIndex.empty := by
    change (c.keepRows live).index.map _ = _
    rw [index_keepRows]
  have hlen' : (unpublished (kept rows live)).length = live.length := by
    rw [unpublished, List.length_map, hlen]
  refine Keyed.fresh (hlen'.symm ▸ hsame.sized (h.sized.keepRows live)) ?_ ?_
    (keysOf_unpublished _ _) fun hn i r hr => ?_
  · rw [hindex, Option.isSome_map, h.indexed]
  · rw [hindex]
    intro t ht
    obtain ⟨-, -, rfl⟩ := Option.map_eq_some_iff.1 ht
    rfl
  · have hn' : c.Numeric := (numeric_congr (hsame.type.trans (type_keepRows c live))).1 hn
    obtain ⟨r₀, hr₀, rfl⟩ := Option.map_eq_some_iff.1 ((List.getElem?_map ..).symm.trans hr)
    obtain ⟨src, hsrc, rfl⟩ := Option.map_eq_some_iff.1 ((List.getElem?_map ..).symm.trans hr₀)
    obtain ⟨v, hv⟩ := (hlive src).1 (List.mem_of_getElem? hsrc)
    rw [cellAt_sameRows hsame, cellAt_keepRows h.sized hsrc, List.getD_eq_getElem?_getD, hv]
    exact h.stores hn' src (true, v) hv

theorem Keyed.clearRows (h : c.Keyed indexed rows) : c.clearRows.Keyed indexed [] := by
  have hindex : c.clearRows.index = c.index.map fun _ => ColumnIndex.empty := by
    unfold Column.clearRows clearIndex
    dsimp only
    split_ifs <;> rfl
  refine Keyed.fresh h.sized.clearRows ?_ ?_ rfl (fun _ i r hr => by cases hr)
  · rw [hindex, Option.isSome_map, h.indexed]
  · rw [hindex]
    intro t ht
    obtain ⟨-, -, rfl⟩ := Option.map_eq_some_iff.1 ht
    rfl

theorem keyed_new (spec : AttrSpec) : (new spec : Column ι).Keyed spec.indexed [] := by
  refine Keyed.fresh (sized_new spec) ?_ ?_ rfl fun _ i r hr => by cases hr
  · unfold new
    dsimp only
    split_ifs with h
    · exact h.symm
    · exact (Bool.eq_false_iff.2 h).symm
  · unfold new
    dsimp only
    split_ifs
    · exact fun t ht => (Option.some.inj ht).symm
    · exact fun t ht => by cases ht

/-- Nothing is asked of the values. -/
theorem invariant_keyed (indexed : ℕ → Bool) : Column.Invariant (ι := ι) False
    (fun a c rows => c.Keyed (indexed a) rows) anyWrite where
  ok hE := hE.elim
  append {a c rows v} h hv _ := by
    have hpush : (c.appendValue v).Keyed (indexed a) (rows ++ [(false, v.carried)]) := by
      have hsized := h.sized.appendValue v
      have hnumeric := numeric_congr (type_appendValue c v)
      have hnum : c.Numeric → (c.appendValue v).Keyed (indexed a)
          (rows ++ [(false, v.carried)]) := by
        intro hn
        obtain ⟨hc, hplain, hraw⟩ := raw_cellOf (v := v) hn hv
        rw [appendValue_eq, hc]
        exact h.push (fun _ => hplain) fun _ => hraw
      exact
      { sized := by rwa [List.length_append]
        indexed := (index_appendValue c v).symm ▸ h.indexed
        stores := fun hn => (hnum (hnumeric.1 hn)).stores hn
        index := fun hn => (hnum (hnumeric.1 hn)).index hn }
    exact hpush.addPosting _
  copy {a c rows i r} h hi := by
    rw [appendCopy_eq]
    refine (h.push (fun ht => ?_) fun hn => h.stores hn i r hi).addPosting _
    obtain ⟨h1, h2, h3⟩ := h.sized.plain ht
    exact ⟨by simp [cellAt, h1], by simp [cellAt, h2], by simp [cellAt, h3]⟩
  adjust h hi he := h.adjust hi he
  setRow h hi hv _ he _ := h.setRow hi hv he
  permute h _ hlive he := h.permute hlive he
  clearRows h := h.clearRows

/-! ### Read back -/

omit [ColumnIndex ι] [LawfulColumnIndex ι] in
theorem reintern_keeps (h : c.Sized n) (ht : c.type = .text) (i : InternalId) :
    (c.reintern i).Sized n ∧ (c.reintern i).type = .text ∧ (c.reintern i).index = c.index := by
  unfold Column.reintern
  split_ifs
  · have hs := (sameRows_internTerms c (c.rawText.getD i [])).sized h
    have htype : (c.internTerms (c.rawText.getD i [])).1.type = .text :=
      (type_internTerms c _).trans ht
    obtain ⟨h1, h2, h3⟩ := hs.text htype
    refine ⟨⟨hs.data, hs.present, fun _ => ⟨?_, ?_, h3⟩, fun hn => absurd htype hn⟩, htype,
      index_internTerms c _⟩
    · exact (List.length_set ..).trans h1
    · exact (List.length_set ..).trans h2
  · exact ⟨h, ht, rfl⟩

omit [ColumnIndex ι] [LawfulColumnIndex ι] in
/-- Every column is read back with its rows, whatever its strings are. -/
theorem reread_keeps {t : Column ι} (h : c.Sized n)
    (ht : t.textTerms = [] ∧ t.docLen = [] ∧ t.rawText = []) :
    (c.reread t).Sized n ∧ (c.reread t).index = t.index := by
  have hfold : ∀ (l : List InternalId) (c : Column ι), c.Sized n → c.type = .text →
      (l.foldl Column.reintern c).Sized n ∧ (l.foldl Column.reintern c).index = c.index := by
    intro l
    induction l with
    | nil => exact fun c hc _ => ⟨hc, rfl⟩
    | cons i l ih =>
      intro c hc htext
      obtain ⟨h1, h2, h3⟩ := reintern_keeps hc htext i
      obtain ⟨h4, h5⟩ := ih _ h1 h2
      exact ⟨h4, h5.trans h3⟩
  have hsized : ∀ y : Column ι, y.Sized n →
      y.sizeDerived.Sized n ∧ y.sizeDerived.index = y.index := by
    intro y hy
    refine ⟨(sameData_sizeDerived y).toSameRows.sized hy, ?_⟩
    unfold sizeDerived
    split <;> rfl
  unfold Column.reread
  by_cases htext : c.type = .text
  · rw [if_pos htext]
    obtain ⟨h1, h2⟩ := hfold (List.range c.rawText.length) { c.readBack t with
        rawText := c.rawText, textTerms := List.replicate c.rawText.length []
        docLen := List.replicate c.rawText.length 0 }
      ⟨h.data, h.present, fun _ => by simp [(h.text htext).2.2], fun hn => absurd htext hn⟩ htext
    obtain ⟨h3, h4⟩ := hsized _ h1
    exact ⟨h3, h4.trans h2⟩
  · rw [if_neg htext]
    exact hsized _ ⟨h.data, h.present, fun hn => absurd hn htext, fun _ => ht⟩

omit [LawfulColumnIndex ι] in
theorem Sized.reread (h : c.Sized n) (spec : AttrSpec) :
    (c.reread (new spec)).clearDerived.Sized n :=
  (sameData_clearDerived _).toSameRows.sized (reread_keeps h ⟨rfl, rfl, rfl⟩).1

omit [LawfulColumnIndex ι] in
theorem Sized.rebuildRow (h : c.Sized n) (he : c.rebuildRow i = .ok () c') : c'.Sized n :=
  (sameData_rebuildRow he).toSameRows.sized h

theorem Keyed.reread (h : c.Keyed indexed rows) {spec : AttrSpec} (hspec : spec.indexed = indexed) :
    (c.reread (new spec)).clearDerived.Keyed indexed (unpublished rows) := by
  obtain ⟨hsized, hindex⟩ := reread_keeps (t := new spec) h.sized ⟨rfl, rfl, rfl⟩
  have hsame := sameData_clearDerived (c.reread (new spec))
  have hclear : (c.reread (new spec)).clearDerived.index =
      (new spec : Column ι).index.map fun _ => ColumnIndex.empty := by
    rw [← hindex]
    unfold clearDerived
    rfl
  have hlen : (unpublished rows).length = rows.length := List.length_map _
  refine Keyed.fresh (hlen.symm ▸ hsame.toSameRows.sized hsized) ?_ ?_ (keysOf_unpublished _ _)
    fun hn i r hr => ?_
  · rw [hclear, Option.isSome_map, (keyed_new spec).indexed, hspec]
  · rw [hclear]
    intro t ht
    obtain ⟨-, -, rfl⟩ := Option.map_eq_some_iff.1 ht
    rfl
  · have hn' : c.Numeric := (numeric_congr (hsame.type.trans (type_reread c _))).1 hn
    have htext : c.type ≠ .text := by rcases hn' with h | h <;> simp [h]
    obtain ⟨r₀, hr₀, rfl⟩ := Option.map_eq_some_iff.1 ((List.getElem?_map ..).symm.trans hr)
    obtain ⟨h1, h2, h3⟩ := h.sized.plain htext
    have hcell : (c.reread (new spec)).cellAt i = c.cellAt i := by
      have hdata := sameData_sizeDerived (c.readBack (new spec))
      rw [Column.reread, if_neg htext, cellAt_sameRows hdata.toSameRows]
      unfold cellAt readBack new
      rw [h1, h2, h3]
    rw [cellAt_sameRows hsame.toSameRows, hcell]
    exact h.stores hn' i r₀ hr₀

theorem Keyed.rebuildRow (h : c.Keyed indexed rows) (hi : rows[i]? = some (false, v))
    (he : c.rebuildRow i = .ok () c') : c'.Keyed indexed (rows.set i (true, v)) := by
  obtain ⟨_, c₁, hadjust, hend⟩ := Outcome.andThen_ok he
  cases hend
  exact (h.adjust hi hadjust).addPosting i

/-! ### What is thrown -/

omit [LawfulColumnIndex ι]

variable {P : Exn → Prop}

theorem adjustIndex_throwsOnly (hP : ∀ (t : ι) key id, (ColumnIndex.insert t key id).ThrowsOnly P)
    (c : Column ι) (i : InternalId) (b : Bool) : (c.adjustIndex i b).ThrowsOnly P := by
  unfold Column.adjustIndex
  cases c.index with
  | none => trivial
  | some t =>
    dsimp only
    split_ifs
    · exact (hP t _ i).mapState _
    · trivial
    · trivial

theorem setRow_throwsOnly (hP : ∀ (t : ι) key id, (ColumnIndex.insert t key id).ThrowsOnly P)
    (c : Column ι) (i : InternalId) (v : AttrValue) : (c.setRow i v).ThrowsOnly P := by
  rw [setRow_eq]
  exact (adjustIndex_throwsOnly hP _ i true).andThen fun _ _ _ => trivial

theorem permute_throwsOnly (hP : ∀ (t : ι) key id, (ColumnIndex.insert t key id).ThrowsOnly P)
    (c : Column ι) (live : List InternalId) : (c.permute live).ThrowsOnly P := by
  have hfill : ∀ (n k : ℕ) (c : Column ι), (fillIndex n k c).ThrowsOnly P := by
    intro n
    induction n with
    | zero => exact fun k c => trivial
    | succ n ih =>
      intro k c
      rw [Column.fillIndex]
      exact (adjustIndex_throwsOnly hP c k true).andThen fun _ c' _ => ih (k + 1) c'
  exact hfill _ _ _

end Column

namespace MetadataStore

variable {ι : Type} [ColumnIndex ι] {P : Exn → Prop} {rec : Record}

theorem markLive_throwsOnly (hP : ∀ (t : ι) key id, (ColumnIndex.insert t key id).ThrowsOnly P)
    (s : MetadataStore ι) (i : InternalId) : (s.markLive i).ThrowsOnly P :=
  (forColumns_throwsOnly fun _ c _ => Column.adjustIndex_throwsOnly hP (c.adjustCount i true) i true
    ).mapState _

theorem setRow_throwsOnly (hP : ∀ (t : ι) key id, (ColumnIndex.insert t key id).ThrowsOnly P)
    (s : MetadataStore ι) (hv : validate s.schema rec = .ok ()) (i : InternalId) :
    (s.setRow i rec).ThrowsOnly P := by
  rw [setRow, hv]
  refine (Outcome.ThrowsOnly.mapState ?_ _).andThen fun _ _ _ => trivial
  exact forColumns_throwsOnly fun a c _ => c.setRow_throwsOnly hP i (rec.attr a)

theorem permute_throwsOnly (hP : ∀ (t : ι) key id, (ColumnIndex.insert t key id).ThrowsOnly P)
    (s : MetadataStore ι) (live : List InternalId) : (s.permute live).ThrowsOnly P :=
  ((forColumns_throwsOnly fun _ c _ => c.permute_throwsOnly hP live).mapState _).andThen
    fun _ _ _ => trivial

theorem rebuildDerivedState_throwsOnly
    (hP : ∀ (t : ι) key id, (ColumnIndex.insert t key id).ThrowsOnly P)
    (s : MetadataStore ι) (deleted : List Bool) : (s.rebuildDerivedState deleted).ThrowsOnly P := by
  have hrow : ∀ (i : InternalId) (c : Column ι), (c.rebuildRow i).ThrowsOnly P := fun i c =>
    (Column.adjustIndex_throwsOnly hP (c.adjustCount i true) i true).andThen fun _ _ _ => trivial
  have hrows : ∀ (ids : List InternalId) (cs : List (Column ι)),
      (rebuildRows deleted ids cs).ThrowsOnly P := by
    intro ids
    induction ids with
    | nil => exact fun cs => trivial
    | cons i ids ih =>
      intro cs
      rw [rebuildRows]
      split_ifs
      · exact ih cs
      · exact (forColumns_throwsOnly fun _ c _ => hrow i c).andThen fun _ cs' _ => ih cs'
  exact (hrows _ _).mapState _

/-- Taking a row out of the indexes does not throw. -/
theorem markDead_returns (s : MetadataStore ι) (i : InternalId) :
    ∃ s', s.markDead i = .ok () s' := by
  have hnothing : (forColumns (fun _ (c : Column ι) => c.adjust i false) 0 s.columns).ThrowsOnly
      fun _ => False := by
    refine forColumns_throwsOnly fun _ c _ => ?_
    rw [Column.adjust_false_returns]
    trivial
  obtain ⟨_, s', h⟩ := (hnothing.mapState s.withColumns).returns
  exact ⟨s', h⟩

variable [TotalColumnIndex ι]

theorem insert_throws_nothing (t : ι) (key : UInt64) (id : InternalId) :
    (ColumnIndex.insert t key id).ThrowsOnly fun _ => False := by
  obtain ⟨t', h⟩ := TotalColumnIndex.insert_returns t key id
  rw [h]
  trivial

theorem markLive_returns (s : MetadataStore ι) (i : InternalId) :
    ∃ s', s.markLive i = .ok () s' := by
  obtain ⟨_, s', h⟩ := (markLive_throwsOnly insert_throws_nothing s i).returns
  exact ⟨s', h⟩

theorem setRow_returns (s : MetadataStore ι) (hv : validate s.schema rec = .ok ())
    (i : InternalId) : ∃ s', s.setRow i rec = .ok () s' := by
  obtain ⟨_, s', h⟩ := (setRow_throwsOnly insert_throws_nothing s hv i).returns
  exact ⟨s', h⟩

theorem permute_returns (s : MetadataStore ι) (live : List InternalId) :
    ∃ s', s.permute live = .ok () s' := by
  obtain ⟨_, s', h⟩ := (permute_throwsOnly insert_throws_nothing s live).returns
  exact ⟨s', h⟩

theorem rebuildDerivedState_returns (s : MetadataStore ι) (deleted : List Bool) :
    ∃ s', s.rebuildDerivedState deleted = .ok () s' := by
  obtain ⟨_, s', h⟩ := (rebuildDerivedState_throwsOnly insert_throws_nothing s deleted).returns
  exact ⟨s', h⟩

end MetadataStore

end Metadata

end Vdb
