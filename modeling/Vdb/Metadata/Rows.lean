import Vdb.Metadata.Dictionary
import Mathlib.Algebra.Order.BigOperators.Group.List

/-!
# What a column stores

The abstract content of a column is a list of rows, each a value and whether it is live.
`Column.Ok` says that the arrays of a column hold these values and that its counters count the live
ones.  The lemmas here say, primitive by primitive, what happens to that list.

* `Column.Ok.counted` : no counter falls below zero when a live row is dropped from it.
-/

namespace Vdb

namespace Metadata

/-- A row as one column sees it: whether it is live, and its value. -/
abbrev ColRow := Bool × AttrValue

/-- The entries of the parallel arrays for one row. -/
structure Cell where
  data : UInt64 := 0
  present : Bool := false
  terms : List ℕ := []
  docLen : ℕ := 0
  raw : Bytes := []

/-- The value the cell stands for has no terms. -/
def Cell.Plain (x : Cell) : Prop := x.terms = [] ∧ x.docLen = 0 ∧ x.raw = []

/-- The number of tokens of a text, as a row stores it. -/
def tokenCount (v : AttrValue) : ℕ := (tokenizeText v.text).length % 2 ^ 32

namespace Column

variable {ι : Type} {c c' : Column ι} {x : Cell} {v w : AttrValue} {i n : ℕ}
  {rows : List ColRow} {live : List InternalId}

def cellAt (c : Column ι) (i : InternalId) : Cell where
  data := c.data.getD i 0
  present := c.present.getD i false
  terms := c.textTerms.getD i []
  docLen := c.docLen.getD i 0
  raw := c.rawText.getD i []

/-- The cell holds the value. -/
structure Stores (c : Column ι) (x : Cell) (v : AttrValue) : Prop where
  carried : v.carried = v
  typed : v.isNull = true ∨ v.type = c.type
  present : x.present = !v.isNull
  bool : c.type = .bool → v.raw = 0 ∨ v.raw = 1
  raw : v.isNull = false → c.type ≠ .tag → c.type ≠ .text → x.data = v.raw
  tag : v.isNull = false → c.type = .tag → c.codes v.text = some x.data.toNat
  text : c.type = .text → x.raw = v.text ∧ x.terms = termCodes c.codes v.text ∧
    x.docLen = tokenCount v ∧ c.Knows v.text
  unused : c.type = .text → x.data = 0
  plain : c.type ≠ .text → x.Plain

/-- The codes a value is counted under. -/
def codesOf (c : Column ι) (v : AttrValue) : List ℕ :=
  if v.isNull then []
  else
    match c.type with
    | .text => termCodes c.codes v.text
    | .tag => (c.codes v.text).toList
    | .bool => [v.raw.toNat]
    | _ => []

/-- The arrays have `n` entries. -/
structure Sized (c : Column ι) (n : ℕ) : Prop where
  data : c.data.length = n
  present : c.present.length = n
  text : c.type = .text → c.textTerms.length = n ∧ c.docLen.length = n ∧ c.rawText.length = n
  plain : c.type ≠ .text → c.textTerms = [] ∧ c.docLen = [] ∧ c.rawText = []

/-- The column holds the values of the rows, and counts the live ones. -/
structure Ok (c : Column ι) (rows : List ColRow) : Prop where
  dict : c.Dict
  sized : c.Sized rows.length
  stores : ∀ i r, rows[i]? = some r → c.Stores (c.cellAt i) r.2
  count : ∀ k, c.count.getD k 0 = rows.countP fun r => r.1 && decide (k ∈ c.codesOf r.2)
  docCount : c.type = .text → c.liveDocCount = rows.countP fun r => r.1 && !r.2.isNull
  docLen : c.type = .text →
    c.totalDocLen = (rows.map fun r => if r.1 then tokenCount r.2 else 0).sum

/-- Whether a cell holds a value depends on the type and the codes only. -/
theorem Stores.congr (h : c.Stores x v) (ht : c'.type = c.type) (hc : c'.codes = c.codes) :
    c'.Stores x v where
  carried := h.carried
  typed := ht ▸ h.typed
  present := h.present
  bool := ht ▸ h.bool
  raw := ht ▸ h.raw
  tag := ht ▸ hc ▸ h.tag
  text hx := by
    obtain ⟨h1, h2, h3, h4⟩ := h.text (ht ▸ hx)
    exact ⟨h1, hc ▸ h2, h3, fun tok htok => hc ▸ h4 tok htok⟩
  unused := ht ▸ h.unused
  plain := ht ▸ h.plain

/-! ### Values under a growing dictionary -/

theorem Stores.grows (h : c.Stores x v) (hg : c.Grows c') : c'.Stores x v := by
  have htype := hg.type
  exact
  { carried := h.carried
    typed := htype ▸ h.typed
    present := h.present
    bool := htype ▸ h.bool
    raw := htype ▸ h.raw
    tag := fun hv ht => hg.codes _ _ (h.tag hv (htype ▸ ht))
    text := fun ht => by
      obtain ⟨h1, h2, h3, h4⟩ := h.text (htype ▸ ht)
      exact ⟨h1, h2.trans (hg.termCodes_eq h4).symm, h3, hg.knows h4⟩
    unused := htype ▸ h.unused
    plain := htype ▸ h.plain }

theorem Stores.codesOf_grows (h : c.Stores x v) (hg : c.Grows c') : c'.codesOf v = c.codesOf v := by
  have htype := hg.type
  unfold codesOf
  rw [htype]
  split_ifs with hv
  · rfl
  · have hv' : v.isNull = false := Bool.eq_false_iff.2 hv
    cases ht : c.type with
    | text => exact hg.termCodes_eq (h.text ht).2.2.2
    | tag => exact congrArg Option.toList (hg.codes_eq (by rw [h.tag hv' ht]; rfl))
    | _ => rfl

theorem Sized.grows (h : c.Sized n) (hg : c.Grows c') : c'.Sized n := by
  rw [hg.rest]
  exact ⟨h.data, h.present, h.text, h.plain⟩

theorem Ok.grows (h : c.Ok rows) (hg : c.Grows c') (hd : c'.Dict) : c'.Ok rows := by
  have hcell : ∀ i, c'.cellAt i = c.cellAt i := fun i => by
    rw [hg.rest]
    rfl
  have htype := hg.type
  refine ⟨hd, h.sized.grows hg, fun i r hr => ?_, fun k => ?_, fun ht => ?_, fun ht => ?_⟩
  · rw [hcell]
    exact (h.stores i r hr).grows hg
  · rw [hg.count, h.count]
    refine List.countP_congr fun r hr => ?_
    obtain ⟨i, hi⟩ := List.getElem?_of_mem hr
    rw [(h.stores i r hi).codesOf_grows hg]
  · rw [hg.rest]
    exact h.docCount (htype ▸ ht)
  · rw [hg.rest]
    exact h.docLen (htype ▸ ht)

/-! ### Codes of a row -/

theorem nodup_codesOf (c : Column ι) (v : AttrValue) : (c.codesOf v).Nodup := by
  unfold codesOf
  split_ifs
  · exact List.nodup_nil
  · split
    · exact nodup_termCodes _ _
    · cases c.codes v.text with
      | none => exact List.nodup_nil
      | some k => exact List.nodup_singleton k
    · exact List.nodup_singleton _
    · exact List.nodup_nil

theorem Stores.lt_width (h : c.Stores x v) (hd : c.Dict) {k : ℕ} (hk : k ∈ c.codesOf v) :
    k < c.width := by
  unfold codesOf at hk
  unfold width
  split_ifs at hk with hv
  · cases hk
  · cases ht : c.type with
    | text =>
      rw [ht] at hk
      obtain ⟨tok, -, hcode⟩ := mem_termCodes.1 hk
      simpa using hd.lt hcode
    | tag =>
      rw [ht] at hk
      simpa using hd.lt (Option.mem_toList.1 hk)
    | bool =>
      rw [ht] at hk
      rw [List.mem_singleton.1 hk]
      rcases h.bool ht with h0 | h0 <;> simp [h0]
    | _ =>
      rw [ht] at hk
      cases hk

/-- A present row is counted under the codes of its value. -/
theorem Stores.codesAt (h : c.Stores (c.cellAt i) v) (hd : c.Dict) (hv : v.isNull = false) :
    c.codesAt i = c.codesOf v := by
  unfold Column.codesAt codesOf
  rw [if_neg (by simp [hv])]
  cases ht : c.type with
  | text => exact (h.text ht).2.1
  | tag =>
    have hcode := h.tag hv ht
    have hlt := hd.lt_pow hcode
    change _ = (c.codes v.text).toList
    rw [hcode]
    exact congrArg (fun k => [k]) (Nat.mod_eq_of_lt hlt)
  | bool =>
    have hraw : c.data.getD i 0 = v.raw :=
      h.raw hv (by rw [ht]; decide) (by rw [ht]; decide)
    change [(c.data.getD i 0).toNat % 2 ^ 32] = [v.raw.toNat]
    rw [hraw]
    rcases h.bool ht with h0 | h0 <;> rw [h0] <;> rfl
  | _ => rfl

/-- Reading a row gives its value; a Tag also shows its code. -/
theorem Stores.get (h : c.Stores (c.cellAt i) v) (hd : c.Dict) : (c.get i).carried = v := by
  have hp : c.isPresent i = !v.isNull := h.present
  unfold Column.get
  rw [hp]
  cases hv : v.isNull with
  | true =>
    rw [← h.carried, AttrValue.carried_null hv]
    rfl
  | false =>
    have htype : v.type = c.type := h.typed.resolve_left (by simp [hv])
    rw [if_neg (by simp)]
    by_cases htag : c.type = .tag
    · rw [if_pos htag]
      have hdict := (hd.codes _ _).1 (h.tag hv htag)
      rw [List.getD_eq_getElem?_getD, show c.data.getD i 0 = (c.cellAt i).data from rfl, hdict]
      rw [← h.carried]
      unfold AttrValue.carried
      rw [htype, htag]
      rfl
    · rw [if_neg htag]
      by_cases htext : c.type = .text
      · rw [if_pos htext, show c.rawText.getD i [] = v.text from (h.text htext).1, ← h.carried]
        unfold AttrValue.carried
        rw [htype, htext]
        rfl
      · rw [if_neg htext, show c.data.getD i 0 = v.raw from h.raw hv htag htext, ← htype]
        conv_rhs => rw [← h.carried]
        unfold AttrValue.carried
        rw [← htype] at htag htext
        cases ht : v.type <;> simp_all

/-! ### Counting a row -/

theorem Ok.stores_at (h : c.Ok rows) {b : Bool} (hi : rows[i]? = some (b, v)) :
    c.Stores (c.cellAt i) v := h.stores i _ hi

theorem Stores.isPresent (h : c.Stores (c.cellAt i) v) : c.isPresent i = !v.isNull := h.present

/-- What counting a present row up or down leaves. -/
theorem adjustCount_eq (hp : c.isPresent i = true) (increment : Bool) :
    c.adjustCount i increment = { c with
      count := (c.codesAt i).foldl (fun l code => l.modify code (bump increment)) c.count
      liveDocCount := if c.type = .text then bump increment c.liveDocCount else c.liveDocCount
      totalDocLen :=
        if c.type = .text then
          if increment then c.totalDocLen + c.docLen.getD i 0 else c.totalDocLen - c.docLen.getD i 0
        else c.totalDocLen } := by
  unfold adjustCount
  rw [if_neg (by simp [hp])]
  dsimp only
  split_ifs <;> rfl

theorem adjustCount_of_absent (hp : c.isPresent i = false) (increment : Bool) :
    c.adjustCount i increment = c := by
  unfold adjustCount
  rw [if_pos (by simp [hp])]

theorem codesOf_null (c : Column ι) (hv : v.isNull = true) : c.codesOf v = [] := by
  unfold codesOf
  rw [if_pos hv]

theorem tokenCount_null (hc : v.carried = v) (hv : v.isNull = true) : tokenCount v = 0 := by
  have hnull : v.type = .null := of_decide_eq_true hv
  have htext : v.text = [] := by
    rw [← hc]
    unfold AttrValue.carried
    rw [hnull]
  unfold tokenCount
  rw [htext]
  rfl

/-- Dropping a live row finds every counter it is in above zero. -/
theorem Ok.counted (h : c.Ok rows) (hi : rows[i]? = some (true, v)) (hv : v.isNull = false) :
    (c.codesAt i).Nodup ∧ (∀ k ∈ c.codesAt i, 0 < c.count.getD k 0) ∧
      (c.type = .text → 0 < c.liveDocCount ∧ c.docLen.getD i 0 ≤ c.totalDocLen) := by
  have hst := h.stores_at hi
  have hmem := List.mem_of_getElem? hi
  rw [hst.codesAt h.dict hv]
  refine ⟨nodup_codesOf c v, fun k hk => ?_, fun ht => ⟨?_, ?_⟩⟩
  · rw [h.count, List.countP_pos_iff]
    exact ⟨_, hmem, by simpa using hk⟩
  · rw [h.docCount ht, List.countP_pos_iff]
    exact ⟨_, hmem, by simpa using hv⟩
  · rw [h.docLen ht, show c.docLen.getD i 0 = tokenCount v from (hst.text ht).2.2.1]
    exact List.single_le_sum (by simp) _ (List.mem_map.2 ⟨_, hmem, rfl⟩)

/-- Making a row live counts it, and making it dead drops it from the counts. -/
theorem Ok.adjustCount (h : c.Ok rows) {b : Bool} (hi : rows[i]? = some (!b, v)) :
    (c.adjustCount i b).Ok (rows.set i (b, v)) := by
  have hst := h.stores_at hi
  have hlen : (rows.set i (b, v)).length = rows.length := List.length_set
  have hrow : ∀ (j : ℕ) (r : ColRow), (rows.set i (b, v))[j]? = some r → ∃ r' : ColRow,
      rows[j]? = some r' ∧ r'.2 = r.2 := by
    intro j r hr
    rw [List.getElem?_set] at hr
    split_ifs at hr with hij hlt
    · cases hr
      exact ⟨(!b, v), hij ▸ hi, rfl⟩
    · exact ⟨r, hr, rfl⟩
  have hcnt : ∀ p : ColRow → Bool, (rows.set i (b, v)).countP p + (p (!b, v)).toNat =
      rows.countP p + (p (b, v)).toNat := fun p => Tally.countP_set p hi (b, v)
  have hsum := Tally.sum_map_set (fun r : ColRow => if r.1 then tokenCount r.2 else 0) hi (b, v)
  cases hv : v.isNull with
  | true =>
    -- a null value is in no counter
    have hp : c.isPresent i = false := by rw [hst.isPresent, hv]; rfl
    rw [adjustCount_of_absent hp]
    refine ⟨h.dict, hlen ▸ h.sized, fun j r hr => ?_, fun k => ?_, fun ht => ?_, fun ht => ?_⟩
    · obtain ⟨r', hr', he⟩ := hrow j r hr
      exact he ▸ h.stores j r' hr'
    · have := hcnt fun r => r.1 && decide (k ∈ c.codesOf r.2)
      simp only [codesOf_null c hv, List.not_mem_nil, decide_false, Bool.and_false,
        Bool.toNat_false, Nat.add_zero] at this
      rw [this, h.count]
    · have := hcnt fun r => r.1 && !r.2.isNull
      simp only [hv, Bool.not_true, Bool.and_false, Bool.toNat_false, Nat.add_zero] at this
      rw [this, h.docCount ht]
    · simp only [tokenCount_null hst.carried hv, ite_self, Nat.add_zero] at hsum
      rw [hsum, h.docLen ht]
  | false =>
    have hp : c.isPresent i = true := by rw [hst.isPresent, hv]; rfl
    have hcodes := hst.codesAt h.dict hv
    have hrange : ∀ k ∈ c.codesOf v, k < c.count.length := fun k hk => by
      rw [h.dict.count]
      exact hst.lt_width h.dict hk
    rw [adjustCount_eq hp, hcodes]
    refine ⟨⟨h.dict.codes, ?_, h.dict.postings, h.dict.small, h.dict.strings⟩, ?_, fun j r hr => ?_,
      fun k => ?_, fun ht => ?_, fun ht => ?_⟩
    · exact (Tally.length_foldl_modify _ _ _).trans h.dict.count
    · rw [hlen]
      exact ⟨h.sized.data, h.sized.present, h.sized.text, h.sized.plain⟩
    · obtain ⟨r', hr', he⟩ := hrow j r hr
      exact (he ▸ h.stores j r' hr').congr rfl rfl
    · have := hcnt fun r => r.1 && decide (k ∈ c.codesOf r.2)
      change (List.foldl _ c.count (c.codesOf v)).getD k 0 =
        (rows.set i (b, v)).countP fun r => r.1 && decide (k ∈ c.codesOf r.2)
      rw [Tally.getD_foldl_modify _ (nodup_codesOf c v) hrange, h.count]
      by_cases hk : k ∈ c.codesOf v
      · cases b <;> simp [hk, bump] at this ⊢ <;> omega
      · cases b <;> simp [hk] at this ⊢ <;> omega
    · have := hcnt fun r => r.1 && !r.2.isNull
      have hdoc := h.docCount ht
      cases b <;> simp [hv, bump, show c.type = .text from ht] at this ⊢ <;> omega
    · have hdoc := h.docLen ht
      have hcell : c.docLen.getD i 0 = tokenCount v := (hst.text ht).2.2.1
      simp only [show c.type = .text from ht, if_true, hcell]
      cases b <;> simp at hsum ⊢ <;> omega

/-! ### Postings and the index do not matter -/

/-- The postings may change, and the index. -/
theorem Ok.derived (h : c.Ok rows) {p : List (List InternalId)}
    (hp : p.length = c.postings.length) (t : Option ι) :
    { c with postings := p, index := t }.Ok rows where
  dict := ⟨h.dict.codes, h.dict.count, hp.trans h.dict.postings, h.dict.small, h.dict.strings⟩
  sized := ⟨h.sized.data, h.sized.present, h.sized.text, h.sized.plain⟩
  stores i r hr := (h.stores i r hr).congr rfl rfl
  count := h.count
  docCount := h.docCount
  docLen := h.docLen

theorem Ok.addPosting (h : c.Ok rows) (i : InternalId) : (c.addPosting i).Ok rows := by
  unfold Column.addPosting
  split_ifs
  · exact h.derived (Tally.length_foldl_modify _ _ _) c.index
  · exact h

end Column

end Metadata

end Vdb
