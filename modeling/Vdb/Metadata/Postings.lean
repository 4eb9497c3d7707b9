import Vdb.Metadata.Keys

/-!
# Posting lists

The posting list of a code names the rows that were ever written with the code, once for each
writing: nothing is taken out of it but by a compaction or a reload.  `Column.Posted` says how the
lists and the current values may differ; a `PostRule` says how often the list of a code may name a
row that has the code, or one that does not.

* `Posted.setRow` : overwriting a row keeps a rule as long as the new posting does.
* `Posted.permute`, `Posted.reread`, `Posted.rebuildRow` : a compaction and a reload list every row
  that they keep under its current codes, once.
-/

namespace Vdb

namespace Metadata

/-- How often the list of a code may name a row, by whether the row has a value, and the code. -/
structure PostRule where
  Allows : Prop → Prop → ℕ → Prop
  absent : ∀ p, Allows p False 0
  once : ∀ p, Allows p True 1

namespace Column

variable {ι : Type} {c c' : Column ι} {x : Cell} {v w : AttrValue} {i k n : ℕ} {R : PostRule}
  {S S' N N' : InternalId → Prop} {live : List InternalId}

/-- The row has a value with this code. -/
def Carries (c : Column ι) (i : InternalId) (k : ℕ) : Prop :=
  c.isPresent i = true ∧ k ∈ c.codesAt i

/-- How often the list of a code names a row. -/
def timesPosted (c : Column ι) (i : InternalId) (k : ℕ) : ℕ := (c.postings.getD k []).count i

/-- The lists obey the rule for the rows in `S`, and name no rows but those in `N`. -/
structure Posted (R : PostRule) (S N : InternalId → Prop) (c : Column ι) (n : ℕ) : Prop where
  dict : c.Dict
  sized : c.Sized n
  stores : ∀ i < n, ∃ v, c.Stores (c.cellAt i) v
  named : ∀ k, ∀ i ∈ c.postings.getD k [], N i
  posted : ∀ i < n, S i → ∀ k,
    R.Allows (c.isPresent i = true) (c.Carries i k) (c.timesPosted i k)

/-- The list of the code named the row, before the value was written, as often as the rule allows
with the posting of the value. -/
def Admits (R : PostRule) (c : Column ι) (i : InternalId) (v : AttrValue) : Prop :=
  ∀ k, R.Allows (v.isNull = false) (k ∈ c.codesOf v)
    (c.timesPosted i k + if k ∈ c.codesOf v then 1 else 0)

theorem Stores.carries (h : c.Stores (c.cellAt i) v) (hd : c.Dict) :
    c.Carries i k ↔ k ∈ c.codesOf v := by
  unfold Carries
  cases hv : v.isNull with
  | true =>
    rw [h.isPresent, hv, codesOf_null c hv]
    simp
  | false =>
    rw [h.isPresent, hv, h.codesAt hd hv]
    simp

theorem Stores.isPresent_iff (h : c.Stores (c.cellAt i) v) :
    c.isPresent i = true ↔ v.isNull = false := by
  rw [h.isPresent, Bool.not_eq_true']

theorem codesOf_congr (htype : c'.type = c.type) (hcodes : c'.codes = c.codes) (v : AttrValue) :
    c'.codesOf v = c.codesOf v := by
  rw [codesOf, codesOf, htype, hcodes]

/-- A cell beyond the last one holds no value. -/
theorem Sized.cellAt_of_le (h : c.Sized n) (hi : n ≤ i) : c.cellAt i = {} := by
  have hnil : ∀ {α : Type} (l : List α) (d : α), l.length = n ∨ l = [] → l.getD i d = d := by
    rintro α l d (hl | rfl)
    · exact List.getD_eq_default _ _ (hl.le.trans hi)
    · rfl
  have htext : (c.textTerms.length = n ∨ c.textTerms = []) ∧
      (c.docLen.length = n ∨ c.docLen = []) ∧ (c.rawText.length = n ∨ c.rawText = []) := by
    by_cases ht : c.type = .text
    · obtain ⟨h1, h2, h3⟩ := h.text ht
      exact ⟨.inl h1, .inl h2, .inl h3⟩
    · obtain ⟨h1, h2, h3⟩ := h.plain ht
      exact ⟨.inr h1, .inr h2, .inr h3⟩
  rw [cellAt, hnil _ _ (.inl h.data), hnil _ _ (.inl h.present), hnil _ _ htext.1,
    hnil _ _ htext.2.1, hnil _ _ htext.2.2]

theorem stores_absent (c : Column ι) : c.Stores {} attrNull where
  carried := rfl
  typed := .inl rfl
  present := rfl
  bool _ := .inl rfl
  raw := by rintro ⟨⟩
  tag := by rintro ⟨⟩
  text _ := ⟨rfl, rfl, rfl, by rintro tok ⟨⟩⟩
  unused _ := rfl
  plain _ := ⟨rfl, rfl, rfl⟩

theorem Posted.exists_stores (h : c.Posted R S N n) (i : InternalId) :
    ∃ v, c.Stores (c.cellAt i) v := by
  rcases Nat.lt_or_ge i n with hi | hi
  · exact h.stores i hi
  · exact ⟨attrNull, by rw [h.sized.cellAt_of_le hi]; exact stores_absent c⟩

theorem Posted.mono (h : c.Posted R S N n) (hS : ∀ i, S' i → S i) (hN : ∀ i, N i → N' i) :
    c.Posted R S' N' n where
  dict := h.dict
  sized := h.sized
  stores := h.stores
  named k i hi := hN i (h.named k i hi)
  posted i hi hs := h.posted i hi (hS i hs)

theorem isPresent_of_sameData (h : c.SameData c') : c'.isPresent i = c.isPresent i := by
  unfold isPresent
  rw [h.present]

theorem carries_of_sameData (h : c.SameData c') : c'.Carries i k ↔ c.Carries i k := by
  unfold Carries isPresent codesAt
  rw [h.type, h.data, h.present, h.textTerms]

theorem Dict.of_sameData (h : c.Dict) (hs : c.SameData c')
    (hp : c'.postings.length = c.postings.length) (hcount : c'.count.length = c.count.length) :
    c'.Dict where
  codes := by rw [hs.codes, hs.dict]; exact h.codes
  count := by rw [width, hs.type, hs.dict]; exact hcount.trans h.count
  postings := by rw [width, hs.type, hs.dict]; exact hp.trans h.postings
  small := hs.dict.symm ▸ h.small
  strings := by rw [hs.type, hs.dict]; exact h.strings

theorem SameData.stores (hs : c.SameData c') (h : c.Stores (c.cellAt i) v) :
    c'.Stores (c'.cellAt i) v := by
  rw [cellAt_sameRows hs.toSameRows]
  exact h.congr hs.type hs.codes

/-- Counts and indexes do not matter. -/
theorem Posted.of_sameData (h : c.Posted R S N n) (hs : c.SameData c')
    (hp : c'.postings = c.postings) (hcount : c'.count.length = c.count.length) :
    c'.Posted R S N n where
  dict := h.dict.of_sameData hs (congrArg List.length hp) hcount
  sized := hs.toSameRows.sized h.sized
  stores i hi := (h.stores i hi).imp fun _ => hs.stores
  named := by rw [hp]; exact h.named
  posted i hi hsi k := by
    rw [isPresent_of_sameData hs, carries_of_sameData hs, timesPosted, hp]
    exact h.posted i hi hsi k

/-- New strings have empty lists. -/
theorem Posted.grows (h : c.Posted R S N n) (hg : c.Grows c') (hd : c'.Dict) :
    c'.Posted R S N n := by
  have hcell : ∀ i, c'.cellAt i = c.cellAt i := fun i => by
    rw [hg.rest]
    rfl
  have hpresent : ∀ i, c'.isPresent i = c.isPresent i := fun i => congrArg Cell.present (hcell i)
  have hcarries : ∀ i k, c'.Carries i k ↔ c.Carries i k := fun i k => by
    rw [hg.rest]
    rfl
  exact
  { dict := hd
    sized := h.sized.grows hg
    stores := fun i hi => by
      obtain ⟨v, hv⟩ := h.stores i hi
      exact ⟨v, by rw [hcell]; exact hv.grows hg⟩
    named := fun k i hi => h.named k i (hg.postings k ▸ hi)
    posted := fun i hi hs k => by
      rw [hpresent, hcarries, timesPosted, hg.postings]
      exact h.posted i hi hs k }

/-- Other rows in the same arrays: the rule is kept for those that have not changed. -/
theorem Posted.recell (h : c.Posted R S N n) {m : ℕ}
    (hrest : c' = { c with data := c'.data, present := c'.present, textTerms := c'.textTerms,
                           docLen := c'.docLen, rawText := c'.rawText })
    (hsized : c'.Sized m) (hstores : ∀ i < m, ∃ v, c.Stores (c'.cellAt i) v)
    (hsame : ∀ i < m, S' i → i < n ∧ S i ∧ c'.cellAt i = c.cellAt i) : c'.Posted R S' N m := by
  have htype : c'.type = c.type := by rw [hrest]
  have hcodes : c'.codes = c.codes := by rw [hrest]
  have hpost : c'.postings = c.postings := by rw [hrest]
  have hd : c'.Dict := by
    rw [hrest]
    exact ⟨h.dict.codes, h.dict.count, h.dict.postings, h.dict.small, h.dict.strings⟩
  have hstores' : ∀ i < m, ∃ v, c'.Stores (c'.cellAt i) v := fun i hi => by
    obtain ⟨v, hv⟩ := hstores i hi
    exact ⟨v, hv.congr htype hcodes⟩
  refine ⟨hd, hsized, hstores', by rw [hpost]; exact h.named, fun i hi hs k => ?_⟩
  obtain ⟨hlt, hsi, hcell⟩ := hsame i hi hs
  obtain ⟨v, hv⟩ := h.stores i hlt
  have hv' : c'.Stores (c'.cellAt i) v := hcell ▸ hv.congr htype hcodes
  have hcarries : c'.Carries i k ↔ c.Carries i k := by
    rw [hv'.carries hd, hv.carries h.dict, codesOf_congr htype hcodes]
  rw [show c'.isPresent i = c.isPresent i from congrArg Cell.present hcell, hcarries, timesPosted,
    hpost]
  exact h.posted i hlt hsi k

theorem Posted.push (h : c.Posted R S N n) (hx : c.Stores x v) :
    (c.push x).Posted R (fun i => S i ∧ i ≠ n) N (n + 1) := by
  refine h.recell ?_ (h.sized.push x) (fun i hi => ?_) fun i hi hs => ?_
  · rw [Column.push]
    dsimp only
    split_ifs <;> rfl
  · rw [h.sized.cellAt_push hx.plain (Nat.le_of_lt_succ hi)]
    split_ifs with hin
    · exact ⟨v, hx⟩
    · exact h.stores i (lt_of_le_of_ne (Nat.le_of_lt_succ hi) hin)
  · refine ⟨lt_of_le_of_ne (Nat.le_of_lt_succ hi) hs.2, hs.1, ?_⟩
    rw [h.sized.cellAt_push hx.plain (Nat.le_of_lt_succ hi), if_neg hs.2]

theorem Posted.put (h : c.Posted R S N n) (hi : i < n) (hx : c.Stores x v) :
    (c.put i x).Posted R (fun j => S j ∧ j ≠ i) N n := by
  refine h.recell ?_ (h.sized.put i x) (fun j hj => ?_) fun j hj hs => ⟨hj, hs.1, ?_⟩
  · rw [Column.put]
    dsimp only
    split_ifs <;> rfl
  · rw [h.sized.cellAt_put hx.plain hi]
    split_ifs
    · exact ⟨v, hx⟩
    · exact h.stores j hj
  · rw [h.sized.cellAt_put hx.plain hi, if_neg hs.2]

/-! ### Posting a row -/

/-- A row is added to the lists of its codes. -/
theorem getD_postings_addPosting (h : c.Stores (c.cellAt i) v) (hd : c.Dict) (k : ℕ) :
    (c.addPosting i).postings.getD k [] =
      c.postings.getD k [] ++ if k ∈ c.codesOf v then [i] else [] := by
  unfold Column.addPosting
  rw [h.isPresent]
  cases hv : v.isNull with
  | true =>
    rw [codesOf_null c hv, if_neg (by simp : k ∉ ([] : List ℕ)), List.append_nil]
    rfl
  | false =>
    rw [if_neg (by simp)]
    dsimp only
    rw [h.codesAt hd hv, List.getD_eq_getElem?_getD,
      Tally.getElem?_foldl_modify _ (nodup_codesOf c v), List.getD_eq_getElem?_getD]
    split_ifs with hk
    · have hlt : k < c.postings.length := hd.postings.symm ▸ h.lt_width hd hk
      rw [List.getElem?_eq_getElem hlt]
      rfl
    · rw [List.append_nil]

/-- The posting of row `i`, where the rule was not known to hold. -/
theorem Posted.addPosting (h : c.Posted R (fun j => S j ∧ j ≠ i) N n)
    (hv : c.Stores (c.cellAt i) v) (hi : S i → c.Admits R i v) :
    (c.addPosting i).Posted R S (fun j => N j ∨ j = i) n := by
  have hsame := sameData_addPosting c i
  have hlists := getD_postings_addPosting hv h.dict
  have hlen : (c.addPosting i).postings.length = c.postings.length ∧
      (c.addPosting i).count = c.count := by
    unfold Column.addPosting
    split_ifs
    · exact ⟨Tally.length_foldl_modify _ _ _, rfl⟩
    · exact ⟨rfl, rfl⟩
  refine
  { dict := h.dict.of_sameData hsame hlen.1 (congrArg List.length hlen.2)
    sized := hsame.toSameRows.sized h.sized
    stores := fun j hj => (h.stores j hj).imp fun _ => hsame.stores
    named := fun k j hj => ?_
    posted := fun j hj hs k => ?_ }
  · rw [hlists, List.mem_append] at hj
    rcases hj with hj | hj
    · exact .inl (h.named k j hj)
    · split_ifs at hj
      · exact .inr (List.mem_singleton.1 hj)
      · cases hj
  · rw [isPresent_of_sameData hsame, carries_of_sameData hsame, timesPosted, hlists,
      List.count_append]
    by_cases hji : j = i
    · subst hji
      rw [hv.isPresent_iff, hv.carries h.dict]
      have hcount : (if k ∈ c.codesOf v then [j] else []).count j =
          if k ∈ c.codesOf v then 1 else 0 := by
        split_ifs <;> simp
      rw [hcount]
      exact hi hs k
    · have hcount : (if k ∈ c.codesOf v then [i] else []).count j = 0 := by
        split_ifs
        · exact List.count_singleton.trans (if_neg (by simpa using Ne.symm hji))
        · rfl
      rw [hcount, Nat.add_zero]
      exact h.posted j hj ⟨hs, hji⟩ k

/-- A list that does not name the row takes any posting of it. -/
theorem allows_of_unnamed {p : Prop} (h : i ∉ c.postings.getD k []) :
    R.Allows p (k ∈ c.codesOf v) (c.timesPosted i k + if k ∈ c.codesOf v then 1 else 0) := by
  rw [timesPosted, List.count_eq_zero.2 h, Nat.zero_add]
  split_ifs with hk
  · exact (eq_true hk).symm ▸ R.once p
  · exact (eq_false hk).symm ▸ R.absent p

/-- A row of a value that is no longer known keeps no rule, and one that no list names any. -/
theorem Posted.post (h : c.Posted R (fun j => S j ∧ j ≠ i) N n) (hi : ¬ N i) :
    (c.addPosting i).Posted R S (fun j => N j ∨ j = i) n := by
  obtain ⟨v, hv⟩ := h.exists_stores i
  exact h.addPosting hv fun _ k => allows_of_unnamed fun hk => hi (h.named k i hk)

/-! ### The operations of the store -/

/-- A new row is listed under its codes. -/
theorem Posted.appendValue (h : c.Posted R S (· < n) n) (hv : c.Takes v)
    (hfit : ((c.appendValue v).addPosting n).dict.length ≤ 2 ^ 32) :
    ((c.appendValue v).addPosting n).Posted R S (· < n + 1) (n + 1) := by
  rw [dict_addPosting, appendValue_eq, dict_push] at hfit
  obtain ⟨hd, hg, hx⟩ := h.dict.cellOf hv.typed hv.bool hfit
  rw [appendValue_eq]
  exact (((h.grows hg hd).push hx).post (lt_irrefl n)).mono (fun _ => id)
    fun _ => Nat.lt_succ_iff_lt_or_eq.2

theorem Posted.appendCopy (h : c.Posted R S (· < n) n) (src : InternalId) :
    ((c.appendCopy src).addPosting n).Posted R S (· < n + 1) (n + 1) := by
  obtain ⟨v, hv⟩ := h.exists_stores src
  rw [appendCopy_eq]
  exact ((h.push hv).post (lt_irrefl n)).mono (fun _ => id) fun _ => Nat.lt_succ_iff_lt_or_eq.2

theorem postings_adjustCount (c : Column ι) (i : InternalId) (b : Bool) :
    (c.adjustCount i b).postings = c.postings ∧
      (c.adjustCount i b).count.length = c.count.length := by
  cases hp : c.isPresent i with
  | true =>
    rw [adjustCount_eq hp]
    exact ⟨rfl, Tally.length_foldl_modify _ _ _⟩
  | false =>
    rw [adjustCount_of_absent hp]
    exact ⟨rfl, rfl⟩

/-- An old code is that of the string it was given to. -/
theorem Grows.codes_iff (hg : c.Grows c') (hd : c.Dict) (hd' : c'.Dict) (hk : k < c.dict.length)
    (str : Bytes) : c'.codes str = some k ↔ c.codes str = some k := by
  refine ⟨fun hs => ?_, hg.codes str k⟩
  have hold := (hd.codes _ _).2 (List.getElem?_eq_getElem hk)
  have hnew := (hd'.codes _ _).1 (hg.codes _ _ hold)
  rw [(hd'.codes _ _).1 hs] at hnew
  rw [Option.some.inj hnew]
  exact hold

/-- An old code is one of a value as it was. -/
theorem Grows.mem_codesOf (hg : c.Grows c') (hd : c.Dict) (hd' : c'.Dict) (hk : k < c.width) :
    k ∈ c'.codesOf v ↔ k ∈ c.codesOf v := by
  unfold codesOf
  rw [hg.type]
  by_cases hv : v.isNull = true
  · rw [if_pos hv, if_pos hv]
  · rw [if_neg hv, if_neg hv]
    unfold width at hk
    cases ht : c.type with
    | text =>
      rw [ht] at hk
      simp only [mem_termCodes, hg.codes_iff hd hd' hk]
    | tag =>
      rw [ht] at hk
      simp only [Option.mem_toList, hg.codes_iff hd hd' hk]
    | _ => rfl

theorem sameData_adjustCount (c : Column ι) (i : InternalId) (b : Bool) :
    c.SameData (c.adjustCount i b) := by
  cases hp : c.isPresent i with
  | true =>
    rw [adjustCount_eq hp]
    exact ⟨⟨rfl, rfl, rfl, rfl, rfl, rfl⟩, rfl, rfl⟩
  | false =>
    rw [adjustCount_of_absent hp]
    exact .refl c

/-- Counting does not touch the lists. -/
theorem Posted.adjustCount (h : c.Posted R S N n) (i : InternalId) (b : Bool) :
    (c.adjustCount i b).Posted R S N n :=
  h.of_sameData (sameData_adjustCount c i b) (postings_adjustCount c i b).1
    (postings_adjustCount c i b).2

theorem codesOf_carried (hv : v.isNull = true ∨ v.type = c.type) :
    c.codesOf v.carried = c.codesOf v := by
  unfold codesOf
  rw [AttrValue.isNull_carried]
  split_ifs with hnull
  · rfl
  · have htype : v.type = c.type := hv.resolve_left hnull
    cases ht : c.type with
    | text => rw [AttrValue.text_carried (.inr (htype.trans ht))]
    | tag => rw [AttrValue.text_carried (.inl (htype.trans ht))]
    | bool =>
      rw [ht] at htype
      rw [AttrValue.raw_carried (by simp [htype]) (by simp [htype]) (by simp [htype])]
    | _ => rfl

theorem Admits.congr (h : c.Admits R i v) (htype : c'.type = c.type) (hcodes : c'.codes = c.codes)
    (hpost : c'.postings = c.postings) : c'.Admits R i v := by
  intro k
  rw [codesOf_congr htype hcodes, timesPosted, hpost]
  exact h k

/-- Whether a posting is admitted does not depend on what has been interned in between. -/
theorem Admits.grows (h : c.Admits R i v) (hg : c.Grows c') (hd : c.Dict) (hd' : c'.Dict) :
    c'.Admits R i v := by
  intro k
  have htimes : c'.timesPosted i k = c.timesPosted i k := by
    rw [timesPosted, timesPosted, hg.postings]
  by_cases hk : k < c.width
  · have hmem : k ∈ c'.codesOf v ↔ k ∈ c.codesOf v := hg.mem_codesOf hd hd' hk
    rw [htimes]
    simpa only [hmem] using h k
  · -- the list of a new code is empty
    refine allows_of_unnamed ?_
    rw [hg.postings, List.getD_eq_default _ _ (hd.postings.le.trans (not_lt.1 hk))]
    exact List.not_mem_nil

section Operations

variable [ColumnIndex ι]

theorem postings_adjust (c : Column ι) (i : InternalId) (b : Bool) :
    (c.adjust i b).state.postings = c.postings ∧
      (c.adjust i b).state.count.length = c.count.length := by
  obtain ⟨t, ht⟩ := exists_adjustIndex (c.adjustCount i b) i b
  rw [Column.adjust, ht]
  exact postings_adjustCount c i b

theorem Posted.adjust (h : c.Posted R S N n) (i : InternalId) (b : Bool) :
    (c.adjust i b).state.Posted R S N n :=
  h.of_sameData (sameData_adjust c i b) (postings_adjust c i b).1 (postings_adjust c i b).2

/-- What `set_row` does in a column without an index. -/
theorem setRow_of_index_none (hindex : c.index = none) (i : InternalId) (v : AttrValue) :
    (c.setRow i v).state =
      (((c.adjustCount i false).setValue i v).adjustCount i true).addPosting i := by
  have hnone : ((c.adjustCount i false).setValue i v).index = none :=
    (index_setValue _ i v).trans ((index_adjustCount c i false).trans hindex)
  rw [setRow_eq, adjust_of_index_none hindex, Outcome.state, adjust_of_index_none hnone]
  rfl

omit [ColumnIndex ι] in
/-- Overwriting a row there is not only interns the value. -/
theorem Sized.setValue_of_le (h : c.Sized n) (hi : n ≤ i) (v : AttrValue) :
    c.setValue i v = (c.cellOf v).1 := by
  have hset : ∀ {α : Type} (l : List α) (a : α), l.length = n → l.set i a = l := fun l a hl =>
    List.set_eq_of_length_le (hl.le.trans hi)
  unfold Column.setValue Column.cellOf
  by_cases hnull : v.isNull
  · simp only [hnull, if_true, hset _ _ h.data, hset _ _ h.present]
    split_ifs with ht
    · obtain ⟨h1, h2, h3⟩ := h.text ht
      rw [hset _ _ h1, hset _ _ h2, hset _ _ h3]
    · rfl
  · have hsized := (sameRows_internTerms c v.text).sized h
    have hsized' := (sameRows_intern c v.text).sized h
    simp only [hnull, Bool.false_eq_true, if_false]
    split_ifs with ht htag
    · obtain ⟨h1, h2, h3⟩ := hsized.text ((type_internTerms c v.text).trans ht)
      rw [hset _ _ h1, hset _ _ h2, hset _ _ h3, hset _ _ hsized.present]
    · rw [hset _ _ hsized'.data, hset _ _ hsized'.present]
    · rw [hset _ _ h.data, hset _ _ h.present]

/-- A row overwritten in a column without an index. -/
theorem Posted.overwrite (h : c.Posted R S (· < n) n) (hindex : c.index = none) (hv : c.Takes v)
    (hlt : i < n) (hi : S i → c.Admits R i v) (hfit : (c.setRow i v).state.dict.length ≤ 2 ^ 32) :
    (c.setRow i v).state.Posted R S (· < n) n := by
  rw [setRow_of_index_none hindex] at hfit ⊢
  set c₁ := c.adjustCount i false with hc₁
  have hsame : c.SameData c₁ := sameData_adjustCount c i false
  have h₁ : c₁.Posted R S (· < n) n := h.adjustCount i false
  obtain ⟨w, hw⟩ := h₁.stores i hlt
  have hset : c₁.setValue i v = (c₁.cellOf v).1.put i (c₁.cellOf v).2 :=
    setValue_eq (by rwa [h₁.sized.data]) hw.unused v
  have hcount : ((c₁.setValue i v).adjustCount i true).dict = (c₁.cellOf v).1.dict := by
    rw [(sameData_adjustCount ..).dict, hset, dict_put]
  rw [dict_addPosting, hcount] at hfit
  obtain ⟨hd, hg, hx⟩ := h₁.dict.cellOf (hsame.type ▸ hv.typed) hv.bool hfit
  -- the row is overwritten while it is not counted
  set c₂ := (c₁.cellOf v).1 with hc₂
  have h₂ : (c₂.put i (c₁.cellOf v).2).Posted R (fun j => S j ∧ j ≠ i) (· < n) n :=
    (h₁.grows hg hd).put hlt hx
  rw [hset]
  set c₃ := (c₂.put i (c₁.cellOf v).2).adjustCount i true with hc₃
  have h₃ : c₃.Posted R (fun j => S j ∧ j ≠ i) (· < n) n := h₂.adjustCount i true
  have hsame₃ := sameData_adjustCount (c₂.put i (c₁.cellOf v).2) i true
  have hput : (c₂.put i (c₁.cellOf v).2).type = c₂.type ∧
      (c₂.put i (c₁.cellOf v).2).codes = c₂.codes ∧
      (c₂.put i (c₁.cellOf v).2).postings = c₂.postings := by
    rw [Column.put]
    dsimp only
    split_ifs <;> exact ⟨rfl, rfl, rfl⟩
  have hcell : c₃.Stores (c₃.cellAt i) v.carried := by
    rw [cellAt_sameRows hsame₃.toSameRows,
      (h₁.grows hg hd).sized.cellAt_put hx.plain hlt, if_pos rfl]
    exact hx.congr (hsame₃.type.trans hput.1) (hsame₃.codes.trans hput.2.1)
  refine (h₃.addPosting hcell fun hs => ?_).mono (fun _ => id) fun j hj => hj.elim id fun he => ?_
  · have hadmits : c₃.Admits R i v := by
      refine Admits.congr (c := c₂) ?_ (hsame₃.type.trans hput.1) (hsame₃.codes.trans hput.2.1)
        ((postings_adjustCount _ i true).1.trans hput.2.2)
      exact ((hi hs).congr hsame.type hsame.codes (postings_adjustCount c i false).1).grows hg
        h₁.dict hd
    intro k
    rw [codesOf_carried, AttrValue.isNull_carried]
    · exact hadmits k
    · rw [hsame₃.type, hput.1, hg.type, hsame.type]
      exact hv.typed
  · exact he ▸ hlt

/-- **`set_row`** keeps the rule in a column without an index, if the lists admit the posting. -/
theorem Posted.setRow (h : c.Posted R S (· < n) n) (hindex : c.index = none) (hv : c.Takes v)
    (hi : i < n → S i → c.Admits R i v) (hfit : (c.setRow i v).state.dict.length ≤ 2 ^ 32) :
    (c.setRow i v).state.Posted R S (· < n) n := by
  rcases Nat.lt_or_ge i n with hlt | hle
  · exact h.overwrite hindex hv hlt (hi hlt) hfit
  · rw [setRow_of_index_none hindex] at hfit ⊢
    have h₁ : (c.adjustCount i false).Posted R S (· < n) n := h.adjustCount i false
    have hsame : c.SameData (c.adjustCount i false) := sameData_adjustCount c i false
    rw [h₁.sized.setValue_of_le hle] at hfit ⊢
    rw [dict_addPosting, (sameData_adjustCount ..).dict] at hfit
    obtain ⟨hd, hg, -⟩ := h₁.dict.cellOf (hsame.type ▸ hv.typed) hv.bool hfit
    have h₃ := (h₁.grows hg hd).adjustCount i true
    -- there is no such row to post
    have habsent : (((c.adjustCount i false).cellOf v).1.adjustCount i true).isPresent i = false :=
      congrArg Cell.present (h₃.sized.cellAt_of_le hle)
    rw [Column.addPosting, if_pos (by rw [habsent]; exact Bool.false_ne_true)]
    exact h₃

omit [ColumnIndex ι] in
/-- Lists that have been emptied. -/
theorem posted_nil (hd : c.Dict) (hs : c.Sized n) (hstores : ∀ i < n, ∃ v, c.Stores (c.cellAt i) v)
    (hp : ∀ k, c.postings.getD k [] = []) : c.Posted R (fun _ => False) (fun _ => False) n where
  dict := hd
  sized := hs
  stores := hstores
  named k i hi := by
    rw [hp] at hi
    cases hi
  posted i hi := False.elim

omit [ColumnIndex ι] in
theorem getD_map_nil {α β : Type} (l : List α) (k : ℕ) :
    (l.map fun _ => ([] : List β)).getD k [] = [] := by
  rw [List.getD_eq_getElem?_getD, List.getElem?_map]
  cases l[k]? <;> rfl

omit [ColumnIndex ι] in
/-- Posting the first rows, one after the other. -/
theorem Posted.postRows (h : c.Posted R (fun _ => False) (fun _ => False) n) (m : ℕ) :
    ((List.range m).foldl Column.addPosting c).Posted R (· < m) (· < m) n := by
  induction m with
  | zero => exact h.mono (fun i hi => absurd hi (Nat.not_lt_zero i)) fun _ => False.elim
  | succ m ih =>
    rw [List.range_succ, List.foldl_append]
    refine Posted.mono
      (Posted.post (S := (· < m + 1)) (N := (· < m)) (i := m) (ih.mono ?_ fun _ => id)
      (lt_irrefl m)) (fun _ => id) fun _ => Nat.lt_succ_iff_lt_or_eq.2
    exact fun j hj => lt_of_le_of_ne (Nat.le_of_lt_succ hj.1) hj.2

omit [ColumnIndex ι] in
/-- Only columns of strings and of booleans have lists. -/
theorem getD_clearPostings (hd : c.Dict) (k : ℕ) : c.clearPostings.postings.getD k [] = [] := by
  unfold clearPostings
  split_ifs with ht
  · exact getD_map_nil c.postings k
  · have hwidth : c.width = 0 := by
      unfold width
      rw [if_neg fun hb => ht (.inr (.inl hb)), hd.strings fun hs => ht (hs.imp_right .inr)]
      rfl
    exact List.getD_eq_default _ _ ((hd.postings.trans hwidth).le.trans (Nat.zero_le k))

omit [ColumnIndex ι] in
theorem sameData_clearPostings (c : Column ι) :
    c.SameData c.clearPostings ∧ c.clearPostings.postings.length = c.postings.length ∧
      c.clearPostings.count = c.count := by
  obtain ⟨p, hp, he⟩ := exists_clearPostings c
  rw [he]
  exact ⟨⟨⟨rfl, rfl, rfl, rfl, rfl, rfl⟩, rfl, rfl⟩, hp, rfl⟩

/-- **`permute`** lists each row it keeps once. -/
theorem Posted.permute (h : c.Posted R S N n) (live : List InternalId) :
    (c.permute live).state.Posted R (fun _ => True) (· < live.length) live.length := by
  have hkept : (c.keepRows live).Posted R (fun _ => False) N live.length := by
    refine h.recell ?_ (h.sized.keepRows live) (fun i hi => ?_) fun _ _ => False.elim
    · rw [Column.keepRows]
      dsimp only
      split_ifs <;> rfl
    · obtain ⟨v, hv⟩ := h.exists_stores live[i]
      exact ⟨v, by rw [cellAt_keepRows h.sized (List.getElem?_eq_getElem hi)]; exact hv⟩
  obtain ⟨hsame, hlen, hcount⟩ := sameData_clearPostings (c.keepRows live)
  have hcleared : (c.keepRows live).clearPostings.Posted R (fun _ => False) (fun _ => False)
      live.length := by
    exact posted_nil (hkept.dict.of_sameData hsame hlen (congrArg List.length hcount))
      (hsame.toSameRows.sized hkept.sized)
      (fun i hi => (hkept.stores i hi).imp fun _ => hsame.stores) (getD_clearPostings hkept.dict)
  have hposted := hcleared.postRows live.length
  unfold Column.permute
  dsimp only
  obtain ⟨t, ht⟩ := exists_fillIndex live.length 0
    ((List.range live.length).foldl Column.addPosting (c.keepRows live).clearPostings).clearIndex
  rw [ht]
  -- filling the index does not touch the lists
  have hall : ((List.range live.length).foldl Column.addPosting
      (c.keepRows live).clearPostings).Posted R (fun _ => True) (· < live.length) live.length :=
    { hposted with posted := fun i hi _ => hposted.posted i hi hi }
  exact hall.of_sameData ⟨⟨rfl, rfl, rfl, rfl, rfl, rfl⟩, rfl, rfl⟩ rfl rfl

/-! ### Reloading -/

theorem Posted.clearDerived (h : c.Posted R S N n) :
    c.clearDerived.Posted R (fun _ => False) (fun _ => False) n := by
  obtain ⟨-, hlen, -⟩ := sameData_clearPostings c
  have hsame := sameData_clearDerived c
  have hcount : c.clearDerived.count.length = c.count.length := by
    unfold Column.clearDerived
    dsimp only
    split_ifs
    · exact List.length_map _
    · rfl
  exact posted_nil (h.dict.of_sameData hsame hlen hcount) (hsame.toSameRows.sized h.sized)
    (fun i hi => (h.stores i hi).imp fun _ => hsame.stores) (getD_clearPostings h.dict)

/-- What is read back of a column has its rows, and no lists yet. -/
theorem Posted.reread (h : c.Posted R S N n) (spec : AttrSpec) :
    (c.reread (new spec)).clearDerived.Posted R (fun _ => False) (fun _ => False) n := by
  choose value hvalue using h.exists_stores
  have hrows : ∀ (i : ℕ) (r : ColRow), ((List.range n).map fun i => (false, value i))[i]? = some r →
      c.Stores (c.cellAt i) r.2 := by
    intro i r hr
    obtain ⟨j, hj, rfl⟩ := Option.map_eq_some_iff.1 ((List.getElem?_map ..).symm.trans hr)
    obtain ⟨hlt, rfl⟩ := List.getElem?_eq_some_iff.1 hj
    rw [List.getElem_range]
    exact hvalue i
  have hlen : ((List.range n).map fun i => (false, value i)).length = n := by
    rw [List.length_map, List.length_range]
  rw [h.dict.reread (hlen.symm ▸ h.sized) hrows ⟨rfl, rfl, rfl⟩]
  have hsame := sameData_restored c (new spec)
  obtain ⟨counts, lists, hcounts, hlists, -, he⟩ := exists_sizeDerived { c with
    liveDocCount := (new spec : Column ι).liveDocCount
    totalDocLen := (new spec : Column ι).totalDocLen
    index := (new spec : Column ι).index } h.dict.strings
  have hrestored : (c.restored (new spec)).Posted R (fun _ => False) (fun i => True) n :=
    { dict := h.dict.of_sameData hsame
        ((congrArg (fun c => c.postings.length) he).trans (hlists.trans h.dict.postings.symm))
        ((congrArg (fun c => c.count.length) he).trans (hcounts.trans h.dict.count.symm))
      sized := hsame.toSameRows.sized h.sized
      stores := fun i hi => (h.stores i hi).imp fun _ => hsame.stores
      named := fun _ _ _ => trivial
      posted := fun _ _ => False.elim }
  exact hrestored.clearDerived

/-- **A row rebuilt** is listed once. -/
theorem Posted.rebuildRow (h : c.Posted R S N n) (hi : ¬ N i) (he : c.rebuildRow i = .ok () c') :
    c'.Posted R (fun j => S j ∨ j = i) (fun j => N j ∨ j = i) n := by
  obtain ⟨_, c₁, ha, he⟩ := Outcome.andThen_ok he
  cases he
  have hadjust : c₁.Posted R S N n := by
    have := h.adjust i true
    rwa [ha] at this
  exact (hadjust.mono (fun j hj => hj.1.resolve_right hj.2) fun _ => id).post hi

/-- A column without rows. -/
theorem posted_new (spec : AttrSpec) : (new spec : Column ι).Posted R S N 0 where
  dict := (ok_new spec).dict
  sized := sized_new spec
  stores i hi := absurd hi (Nat.not_lt_zero i)
  named k i hi := by
    have hnil : (new spec : Column ι).postings.getD k [] = [] := by
      unfold new
      dsimp only
      split_ifs
      · rcases k with _ | _ | k <;> rfl
      · rfl
    rw [hnil] at hi
    cases hi
  posted i hi := absurd hi (Nat.not_lt_zero i)

end Operations

end Column

end Metadata

end Vdb
