import Vdb.Metadata.Rows

/-!
# Edits of a column

What appending, overwriting, permuting and clearing rows does to the content of a column.  The code
writes the parallel arrays one by one; here each edit is brought to the form of storing one `Cell`
(`Column.push`, `Column.put`), and the cell of a value is `Column.cellOf`.

Whether an index throws makes no difference to the content, so the results are about the state an
operation leaves in either case.
-/

namespace Vdb

namespace Metadata

namespace Column

variable {ι : Type} {c c' : Column ι} {x : Cell} {v w : AttrValue} {i j n : ℕ}
  {rows : List ColRow} {live : List InternalId}

/-- Append the cell of one more row. -/
def push (c : Column ι) (x : Cell) : Column ι :=
  let c := { c with data := c.data ++ [x.data], present := c.present ++ [x.present] }
  if c.type = .text then
    { c with
      textTerms := c.textTerms ++ [x.terms], docLen := c.docLen ++ [x.docLen]
      rawText := c.rawText ++ [x.raw] }
  else c

/-- Overwrite the cell of a row. -/
def put (c : Column ι) (i : InternalId) (x : Cell) : Column ι :=
  let c := { c with data := c.data.set i x.data, present := c.present.set i x.present }
  if c.type = .text then
    { c with
      textTerms := c.textTerms.set i x.terms, docLen := c.docLen.set i x.docLen
      rawText := c.rawText.set i x.raw }
  else c

/-- The cell of a value, its strings interned. -/
def cellOf (c : Column ι) (v : AttrValue) : Column ι × Cell :=
  if v.isNull then (c, {})
  else if c.type = .text then
    let (c, terms, docLen) := c.internTerms v.text
    (c, { present := true, terms, docLen, raw := v.text })
  else if v.type = .tag then
    let (c, code) := c.intern v.text
    (c, { data := UInt64.ofNat code, present := true })
  else (c, { data := v.raw, present := true })

theorem appendValue_eq (c : Column ι) (v : AttrValue) :
    c.appendValue v = (c.cellOf v).1.push (c.cellOf v).2 := by
  unfold appendValue cellOf push
  by_cases hnull : v.isNull
  · simp only [hnull, if_true]
  · by_cases htext : c.type = .text
    · simp only [hnull, htext, if_true, type_internTerms, Bool.false_eq_true, if_false]
    · by_cases htag : v.type = .tag
      · simp only [hnull, htext, htag, if_true, type_intern, Bool.false_eq_true, if_false]
      · simp only [hnull, htext, htag, Bool.false_eq_true, if_false]

theorem setValue_eq (hi : i < c.data.length) (hdata : c.type = .text → c.data.getD i 0 = 0)
    (v : AttrValue) : c.setValue i v = (c.cellOf v).1.put i (c.cellOf v).2 := by
  unfold setValue cellOf put
  by_cases hnull : v.isNull
  · simp only [hnull, if_true]
  · by_cases htext : c.type = .text
    · have hset : (c.internTerms v.text).1.data.set i 0 = (c.internTerms v.text).1.data := by
        rw [rest_internTerms]
        have := hdata htext
        rw [List.getD_eq_getElem _ _ hi] at this
        exact this ▸ List.set_getElem_self hi
      simp only [hnull, htext, if_true, type_internTerms, Bool.false_eq_true, if_false, hset]
    · by_cases htag : v.type = .tag
      · simp only [hnull, htext, htag, if_true, type_intern, Bool.false_eq_true, if_false]
      · simp only [hnull, htext, htag, Bool.false_eq_true, if_false]

theorem appendCopy_eq (c : Column ι) (src : InternalId) :
    c.appendCopy src = c.push (c.cellAt src) := rfl

/-- The cell of a value holds the value. -/
theorem Dict.cellOf (h : c.Dict) (hv : v.isNull = true ∨ v.type = c.type)
    (hb : v.type = .bool → v.raw = 0 ∨ v.raw = 1)
    (hfit : (c.cellOf v).1.dict.length ≤ 2 ^ 32) :
    (c.cellOf v).1.Dict ∧ c.Grows (c.cellOf v).1 ∧
      (c.cellOf v).1.Stores (c.cellOf v).2 v.carried := by
  by_cases hnull : v.isNull = true
  · rw [AttrValue.carried_null hnull]
    unfold Column.cellOf
    rw [if_pos hnull]
    exact ⟨h, .refl c,
      { carried := rfl, typed := .inl rfl, present := rfl, bool := fun _ => .inl rfl
        raw := by rintro ⟨⟩
        tag := by rintro ⟨⟩
        text := fun _ => ⟨rfl, rfl, rfl, by rintro tok ⟨⟩⟩
        unused := fun _ => rfl
        plain := fun _ => ⟨rfl, rfl, rfl⟩ }⟩
  have htype : v.type = c.type := hv.resolve_left hnull
  have hfull : v.carried.isNull = false := by simpa using hnull
  unfold Column.cellOf at hfit ⊢
  rw [if_neg hnull] at hfit ⊢
  by_cases htext : c.type = .text
  · rw [if_pos htext] at hfit ⊢
    have hctext : v.carried.text = v.text := AttrValue.text_carried (.inr (htype.trans htext))
    have htype' := type_internTerms c v.text
    obtain ⟨hd, hg, hknow, hr⟩ := h.internTerms (.inr htext) hfit
    refine ⟨hd, hg, { carried := by simp, typed := .inr ?_, present := by simp [hfull], bool := ?_,
                      raw := ?_, tag := ?_, text := fun _ => ?_, unused := fun _ => rfl,
                      plain := ?_ }⟩
    · rw [AttrValue.type_carried, htype']
      exact htype
    · intro ht
      rw [htype', htext] at ht
      cases ht
    · intro _ _ ht
      exact absurd (htype'.trans htext) ht
    · intro _ ht
      rw [htype', htext] at ht
      cases ht
    · have h1 := congrArg Prod.fst hr
      have h2 := congrArg Prod.snd hr
      rw [hctext]
      refine ⟨rfl, h1, ?_, hknow⟩
      unfold tokenCount
      rw [hctext]
      exact h2
    · intro ht
      exact absurd (htype'.trans htext) ht
  · rw [if_neg htext] at hfit ⊢
    by_cases htag : v.type = .tag
    · rw [if_pos htag] at hfit ⊢
      have hctext : v.carried.text = v.text := AttrValue.text_carried (.inl htag)
      have htype' := type_intern c v.text
      have hctag : c.type = .tag := htype ▸ htag
      obtain ⟨hd, hg, hcode⟩ := h.intern (.inl hctag) hfit
      refine ⟨hd, hg, { carried := by simp, typed := .inr ?_, present := by simp [hfull],
                        bool := ?_, raw := ?_, tag := fun _ _ => ?_, text := ?_, unused := ?_,
                        plain := fun _ => ⟨rfl, rfl, rfl⟩ }⟩
      · rw [AttrValue.type_carried, htype']
        exact htype
      · intro ht
        rw [htype', hctag] at ht
        cases ht
      · intro _ ht
        exact absurd (htype'.trans hctag) ht
      · -- a code fits the 64 bits it is stored in
        have hlt : (c.intern v.text).2 < 2 ^ 64 := (hd.lt_pow hcode).trans (by decide)
        have hdata : (UInt64.ofNat (c.intern v.text).2).toNat = (c.intern v.text).2 :=
          UInt64.toNat_ofNat'.trans (Nat.mod_eq_of_lt hlt)
        rw [hctext]
        exact hcode.trans (congrArg some hdata.symm)
      · intro ht
        exact absurd (htype'.symm.trans ht) htext
      · intro ht
        exact absurd (htype'.symm.trans ht) htext
    · rw [if_neg htag] at hfit ⊢
      have hraw : v.carried.raw = v.raw := by
        refine AttrValue.raw_carried (fun hn => hnull ?_) htag (htype ▸ htext)
        exact decide_eq_true hn
      exact ⟨h, .refl c,
        { carried := by simp, typed := .inr (by simpa using htype), present := by simp [hfull]
          bool := fun ht => hraw ▸ hb (htype.trans ht)
          raw := fun _ _ _ => hraw.symm
          tag := fun _ ht => absurd (htype.trans ht) htag
          text := fun ht => absurd ht htext
          unused := fun ht => absurd ht htext
          plain := fun _ => ⟨rfl, rfl, rfl⟩ }⟩

/-! ### One more row -/

theorem Sized.push (h : c.Sized n) (x : Cell) : (c.push x).Sized (n + 1) := by
  unfold Column.push
  dsimp only
  split_ifs with ht
  · obtain ⟨h1, h2, h3⟩ := h.text ht
    exact ⟨by simp [h.data], by simp [h.present], fun _ => by simp [h1, h2, h3],
      fun hn => absurd ht hn⟩
  · exact ⟨by simp [h.data], by simp [h.present], fun hn => absurd hn ht, h.plain⟩

theorem getD_concat {α : Type} {l : List α} (hl : l.length = n) (a d : α) (hi : i ≤ n) :
    (l ++ [a]).getD i d = if i = n then a else l.getD i d := by
  subst hl
  split_ifs with h
  · subst h
    simp
  · exact List.getD_append _ _ _ _ (by omega)

/-- The cells after one has been appended. -/
theorem Sized.cellAt_push (h : c.Sized n) (hx : c.type ≠ .text → x.Plain) (hi : i ≤ n) :
    (c.push x).cellAt i = if i = n then x else c.cellAt i := by
  unfold Column.push cellAt
  by_cases ht : c.type = .text
  · obtain ⟨h1, h2, h3⟩ := h.text ht
    simp only [ht, if_true, getD_concat h.data _ _ hi, getD_concat h.present _ _ hi,
      getD_concat h1 _ _ hi, getD_concat h2 _ _ hi, getD_concat h3 _ _ hi]
    split_ifs <;> rfl
  · obtain ⟨h1, h2, h3⟩ := h.plain ht
    obtain ⟨p1, p2, p3⟩ := hx ht
    simp only [ht, if_false, getD_concat h.data _ _ hi, getD_concat h.present _ _ hi, h1, h2, h3]
    split_ifs
    · cases x
      simp_all
    · rfl

/-- The values of the live rows. -/
def liveValues (rows : List ColRow) : List AttrValue := (rows.filter Prod.fst).map Prod.snd

theorem countP_live (rows : List ColRow) (p : AttrValue → Bool) :
    rows.countP (fun r => r.1 && p r.2) = (liveValues rows).countP p := by
  induction rows with
  | nil => rfl
  | cons r rows ih =>
    obtain ⟨b, v⟩ := r
    cases b
    · simpa [liveValues] using ih
    · simp [liveValues, List.countP_cons] at ih ⊢
      omega

theorem sum_live (rows : List ColRow) (f : AttrValue → ℕ) :
    (rows.map fun r => if r.1 then f r.2 else 0).sum = ((liveValues rows).map f).sum := by
  induction rows with
  | nil => rfl
  | cons r rows ih =>
    obtain ⟨b, v⟩ := r
    cases b
    · simpa [liveValues] using ih
    · simp only [liveValues, List.map_cons, List.sum_cons, List.filter_cons, if_true] at ih ⊢
      rw [ih]

/-- Other rows in the same arrays: what is counted is the same as long as the live values are. -/
theorem Ok.recell {rows' : List ColRow} (h : c.Ok rows)
    (hrest : c' = { c with data := c'.data, present := c'.present, textTerms := c'.textTerms,
                           docLen := c'.docLen, rawText := c'.rawText })
    (hsized : c'.Sized rows'.length)
    (hstores : ∀ i r, rows'[i]? = some r → c.Stores (c'.cellAt i) r.2)
    (hlive : (liveValues rows').Perm (liveValues rows)) : c'.Ok rows' := by
  have htype : c'.type = c.type := by rw [hrest]
  have hcodes : c'.codes = c.codes := by rw [hrest]
  have hcodesOf : ∀ v, c'.codesOf v = c.codesOf v := fun v => by
    unfold codesOf
    rw [htype, hcodes]
  refine ⟨?_, hsized, fun i r hr => (hstores i r hr).congr htype hcodes, fun k => ?_, fun ht => ?_,
    fun ht => ?_⟩
  · rw [hrest]
    exact ⟨h.dict.codes, h.dict.count, h.dict.postings, h.dict.small, h.dict.strings⟩
  · simp only [hcodesOf]
    rw [countP_live rows' (fun v => decide (k ∈ c.codesOf v)), hlive.countP_eq, ← countP_live,
      ← h.count, hrest]
  · rw [countP_live rows' (fun v => !v.isNull), hlive.countP_eq, ← countP_live,
      ← h.docCount (htype ▸ ht), hrest]
  · rw [sum_live, (hlive.map tokenCount).sum_eq, ← sum_live, ← h.docLen (htype ▸ ht), hrest]

theorem Ok.push (h : c.Ok rows) (hx : c.Stores x v) : (c.push x).Ok (rows ++ [(false, v)]) := by
  refine h.recell ?_ ?_ (fun i r hr => ?_) ?_
  · unfold Column.push
    dsimp only
    split_ifs <;> rfl
  · rw [List.length_append]
    exact h.sized.push x
  · rw [Tally.getElem?_concat_iff] at hr
    rcases hr with hr | ⟨rfl, rfl⟩
    · have hi : i < rows.length := (List.getElem?_eq_some_iff.1 hr).1
      rw [h.sized.cellAt_push hx.plain hi.le, if_neg hi.ne]
      exact h.stores i r hr
    · rwa [h.sized.cellAt_push hx.plain le_rfl, if_pos rfl]
  · simp [liveValues]

/-! ### A row overwritten -/

theorem Sized.put (h : c.Sized n) (i : InternalId) (x : Cell) : (c.put i x).Sized n := by
  unfold Column.put
  dsimp only
  split_ifs with ht
  · obtain ⟨h1, h2, h3⟩ := h.text ht
    exact ⟨by simp [h.data], by simp [h.present], fun _ => by simp [h1, h2, h3],
      fun hn => absurd ht hn⟩
  · exact ⟨by simp [h.data], by simp [h.present], fun hn => absurd hn ht, h.plain⟩

theorem getD_set {α : Type} {l : List α} (hi : i < l.length) (j : ℕ) (a d : α) :
    (l.set i a).getD j d = if j = i then a else l.getD j d := by
  rw [List.getD_eq_getElem?_getD, List.getElem?_set, List.getD_eq_getElem?_getD]
  by_cases hij : j = i
  · subst hij
    simp [hi]
  · simp [hij, Ne.symm hij]

/-- The cells after one has been overwritten. -/
theorem Sized.cellAt_put (h : c.Sized n) (hx : c.type ≠ .text → x.Plain) (hi : i < n) (j : ℕ) :
    (c.put i x).cellAt j = if j = i then x else c.cellAt j := by
  unfold Column.put cellAt
  have h1 : i < c.data.length := h.data.symm ▸ hi
  have h2 : i < c.present.length := h.present.symm ▸ hi
  by_cases ht : c.type = .text
  · obtain ⟨h3, h4, h5⟩ := h.text ht
    simp only [ht, if_true, getD_set h1, getD_set h2, getD_set (h3.symm ▸ hi),
      getD_set (h4.symm ▸ hi), getD_set (h5.symm ▸ hi)]
    split_ifs <;> rfl
  · obtain ⟨h3, h4, h5⟩ := h.plain ht
    obtain ⟨p1, p2, p3⟩ := hx ht
    simp only [ht, if_false, getD_set h1, getD_set h2, h3, h4, h5]
    split_ifs
    · cases x
      simp_all
    · rfl

theorem liveValues_set (hi : rows[i]? = some (false, w)) (v : AttrValue) :
    liveValues (rows.set i (false, v)) = liveValues rows := by
  induction rows generalizing i with
  | nil => cases hi
  | cons r rows ih =>
    cases i with
    | zero =>
      cases hi
      rfl
    | succ i =>
      have := ih hi
      unfold liveValues at this ⊢
      rw [List.set_cons_succ, List.filter_cons, List.filter_cons]
      split_ifs <;> simp [this]

theorem Ok.put (h : c.Ok rows) (hi : rows[i]? = some (false, w)) (hx : c.Stores x v) :
    (c.put i x).Ok (rows.set i (false, v)) := by
  have hlt : i < rows.length := (List.getElem?_eq_some_iff.1 hi).1
  refine h.recell ?_ ?_ (fun j r hr => ?_) ?_
  · unfold Column.put
    dsimp only
    split_ifs <;> rfl
  · rw [List.length_set]
    exact h.sized.put i x
  · rw [h.sized.cellAt_put hx.plain hlt]
    rw [List.getElem?_set] at hr
    split_ifs with hj
    · rw [if_pos hj.symm, if_pos hlt] at hr
      cases hr
      exact hx
    · rw [if_neg (Ne.symm hj)] at hr
      exact h.stores j r hr
  · rw [liveValues_set hi]

/-! ### The operations of the store -/

/-- The value may be stored in the column. -/
structure Takes (c : Column ι) (v : AttrValue) : Prop where
  typed : v.isNull = true ∨ v.type = c.type
  bool : v.type = .bool → v.raw = 0 ∨ v.raw = 1

theorem dict_push (c : Column ι) (x : Cell) : (c.push x).dict = c.dict := by
  unfold Column.push
  dsimp only
  split_ifs <;> rfl

theorem dict_put (c : Column ι) (i : InternalId) (x : Cell) : (c.put i x).dict = c.dict := by
  unfold Column.put
  dsimp only
  split_ifs <;> rfl

theorem dict_addPosting (c : Column ι) (i : InternalId) : (c.addPosting i).dict = c.dict := by
  unfold Column.addPosting
  split_ifs <;> rfl

theorem Ok.appendValue (h : c.Ok rows) (hv : c.Takes v) (id : InternalId)
    (hfit : ((c.appendValue v).addPosting id).dict.length ≤ 2 ^ 32) :
    ((c.appendValue v).addPosting id).Ok (rows ++ [(false, v.carried)]) := by
  rw [dict_addPosting, appendValue_eq, dict_push] at hfit
  obtain ⟨hd, hg, hx⟩ := h.dict.cellOf hv.typed hv.bool hfit
  rw [appendValue_eq]
  exact ((h.grows hg hd).push hx).addPosting id

theorem Ok.appendCopy (h : c.Ok rows) {b : Bool} (hi : rows[i]? = some (b, v)) (id : InternalId) :
    ((c.appendCopy i).addPosting id).Ok (rows ++ [(false, v)]) := by
  rw [appendCopy_eq]
  exact (h.push (h.stores_at hi)).addPosting id

/-- Posting a row does not depend on whether it could be indexed. -/
theorem exists_posted (o : Outcome (Column ι) Unit) (i : InternalId) :
    ∃ p, p.length = o.state.postings.length ∧
      (o.andThen fun _ c => .ok () (c.addPosting i)).state = { o.state with postings := p } := by
  cases o with
  | ok a c =>
    change ∃ p, p.length = c.postings.length ∧ c.addPosting i = { c with postings := p }
    unfold Column.addPosting
    split_ifs
    · exact ⟨_, Tally.length_foldl_modify _ _ _, rfl⟩
    · exact ⟨c.postings, rfl, rfl⟩
  | error e c => exact ⟨c.postings, rfl, rfl⟩

theorem Ok.posted {o : Outcome (Column ι) Unit} (h : o.state.Ok rows) (i : InternalId) :
    (o.andThen fun _ c => .ok () (c.addPosting i)).state.Ok rows := by
  obtain ⟨p, hp, he⟩ := exists_posted o i
  rw [he]
  exact h.derived hp _

variable [ColumnIndex ι]

/-- A column without rows. -/
theorem ok_new (spec : AttrSpec) : (new spec : Column ι).Ok [] where
  dict :=
    { codes := by simp [new]
      count := by
        unfold width new
        split_ifs <;> rfl
      postings := by
        unfold width new
        split_ifs <;> rfl
      small := by simp [new]
      strings := fun _ => rfl }
  sized := ⟨rfl, rfl, fun _ => ⟨rfl, rfl, rfl⟩, fun _ => ⟨rfl, rfl, rfl⟩⟩
  stores := by simp
  count k := by
    rw [List.countP_nil, new]
    dsimp only
    split_ifs
    · rcases k with _ | _ | k <;> rfl
    · rfl
  docCount _ := rfl
  docLen _ := rfl

theorem exists_adjustIndex (c : Column ι) (i : InternalId) (b : Bool) :
    ∃ t, (c.adjustIndex i b).state = { c with index := t } := by
  unfold Column.adjustIndex
  split
  · exact ⟨c.index, rfl⟩
  · rename_i t _
    dsimp only
    split_ifs
    · cases h : ColumnIndex.insert t (sortableKey c.type (c.data.getD i 0)) i with
      | ok _ t => exact ⟨some t, rfl⟩
      | error _ t => exact ⟨some t, rfl⟩
    · exact ⟨_, rfl⟩
    · exact ⟨c.index, rfl⟩

theorem Ok.adjustIndex (h : c.Ok rows) (i : InternalId) (b : Bool) :
    (c.adjustIndex i b).state.Ok rows := by
  obtain ⟨t, ht⟩ := exists_adjustIndex c i b
  rw [ht]
  exact h.derived rfl t

/-- `mark_live` with `true`, `mark_dead` with `false`. -/
theorem Ok.adjust (h : c.Ok rows) {b : Bool} (hi : rows[i]? = some (!b, v)) :
    (c.adjust i b).state.Ok (rows.set i (b, v)) :=
  (h.adjustCount hi).adjustIndex i b

theorem dict_adjust (c : Column ι) (i : InternalId) (b : Bool) :
    (c.adjust i b).state.dict = c.dict := by
  obtain ⟨t, ht⟩ := exists_adjustIndex (c.adjustCount i b) i b
  rw [Column.adjust, ht]
  unfold Column.adjustCount
  dsimp only
  split_ifs <;> rfl

/-- Removing from an index does not throw. -/
theorem adjust_false_returns (c : Column ι) (i : InternalId) :
    c.adjust i false = .ok () (c.adjust i false).state := by
  unfold Column.adjust Column.adjustIndex
  split
  · rfl
  · simp only [Bool.false_eq_true, if_false]
    split_ifs <;> rfl

theorem setRow_eq (c : Column ι) (i : InternalId) (v : AttrValue) :
    c.setRow i v = (((c.adjust i false).state.setValue i v).adjust i true).andThen
      fun _ c => .ok () (c.addPosting i) := by
  rw [Column.setRow, adjust_false_returns]
  rfl

theorem type_adjust (c : Column ι) (i : InternalId) (b : Bool) :
    (c.adjust i b).state.type = c.type := by
  obtain ⟨t, ht⟩ := exists_adjustIndex (c.adjustCount i b) i b
  rw [Column.adjust, ht]
  unfold Column.adjustCount
  dsimp only
  split_ifs <;> rfl

/-- What `set_row` stores, over the column without the old value of the row. -/
theorem Ok.setRow_stores (h : c.Ok rows) (hi : rows[i]? = some (true, w)) (hv : c.Takes v)
    (hfit : (c.setRow i v).state.dict.length ≤ 2 ^ 32) :
    (c.setRow i v).state.dict = ((c.adjust i false).state.cellOf v).1.dict ∧
      ((c.adjust i false).state.cellOf v).1.Dict ∧
      (c.adjust i false).state.Grows ((c.adjust i false).state.cellOf v).1 ∧
      ((c.adjust i false).state.setValue i v).Ok (rows.set i (false, v.carried)) := by
  have hlt : i < rows.length := (List.getElem?_eq_some_iff.1 hi).1
  set c1 := (c.adjust i false).state with hc1
  have h1 : c1.Ok (rows.set i (false, w)) := h.adjust hi
  have hi1 : (rows.set i (false, w))[i]? = some (false, w) := by simp [hlt]
  have htype : c1.type = c.type := type_adjust c i false
  -- overwrite the dead row
  have hset : c1.setValue i v = (c1.cellOf v).1.put i (c1.cellOf v).2 :=
    setValue_eq (by simpa [h1.sized.data] using hlt) (h1.stores_at hi1).unused v
  have hdict : (c.setRow i v).state.dict = (c1.cellOf v).1.dict := by
    obtain ⟨p, -, he⟩ := exists_posted ((c1.setValue i v).adjust i true) i
    rw [setRow_eq, he]
    change ((c1.setValue i v).adjust i true).state.dict = _
    rw [dict_adjust, hset, dict_put]
  obtain ⟨hd, hg, hx⟩ := h1.dict.cellOf (htype ▸ hv.typed) hv.bool (hdict ▸ hfit)
  refine ⟨hdict, hd, hg, ?_⟩
  have h2 := (h1.grows hg hd).put hi1 hx
  rwa [List.set_set, ← hset] at h2

theorem Ok.setRow (h : c.Ok rows) (hi : rows[i]? = some (true, w)) (hv : c.Takes v)
    (hfit : (c.setRow i v).state.dict.length ≤ 2 ^ 32) :
    (c.setRow i v).state.Ok (rows.set i (true, v.carried)) := by
  have hlt : i < rows.length := (List.getElem?_eq_some_iff.1 hi).1
  obtain ⟨-, -, -, h2⟩ := h.setRow_stores hi hv hfit
  have h3 := h2.adjust (b := true) (i := i) (v := v.carried) (by simp [hlt])
  rw [List.set_set] at h3
  rw [setRow_eq]
  exact h3.posted i

/-! ### All rows at once -/

omit [ColumnIndex ι] in
theorem exists_foldl_addPosting (ids : List InternalId) (c : Column ι) :
    ∃ p, p.length = c.postings.length ∧
      ids.foldl Column.addPosting c = { c with postings := p } := by
  induction ids generalizing c with
  | nil => exact ⟨c.postings, rfl, rfl⟩
  | cons id ids ih =>
    obtain ⟨p, hp, he⟩ := exists_posted (.ok () c) id
    obtain ⟨p', hp', he'⟩ := ih (c.addPosting id)
    have hstep : c.addPosting id = { c with postings := p } := he
    rw [hstep] at hp' he'
    exact ⟨p', hp'.trans hp, by rw [List.foldl_cons, hstep, he']⟩

theorem exists_fillIndex (n : ℕ) (id : InternalId) (c : Column ι) :
    ∃ t, (fillIndex n id c).state = { c with index := t } := by
  induction n generalizing id c with
  | zero => exact ⟨c.index, rfl⟩
  | succ n ih =>
    obtain ⟨t, ht⟩ := exists_adjustIndex c id true
    rw [fillIndex]
    cases hc : c.adjustIndex id true with
    | ok _ c' =>
      rw [hc] at ht
      obtain ⟨t', ht'⟩ := ih (id + 1) c'
      refine ⟨t', ht'.trans ?_⟩
      rw [show c' = { c with index := t } from ht]
    | error e c' =>
      rw [hc] at ht
      exact ⟨t, ht⟩

omit [ColumnIndex ι] in
theorem exists_clearPostings (c : Column ι) :
    ∃ p, p.length = c.postings.length ∧ c.clearPostings = { c with postings := p } := by
  unfold clearPostings
  split_ifs
  · exact ⟨_, List.length_map _, rfl⟩
  · exact ⟨c.postings, rfl, rfl⟩

theorem exists_permute (c : Column ι) (live : List InternalId) :
    ∃ p t, p.length = c.postings.length ∧
      (c.permute live).state = { c.keepRows live with postings := p, index := t } := by
  have hkeep : (c.keepRows live).postings = c.postings := by
    unfold keepRows
    dsimp only
    split_ifs <;> rfl
  obtain ⟨p, hp, he⟩ := exists_clearPostings (c.keepRows live)
  rw [hkeep] at hp
  obtain ⟨p', hp', he'⟩ := exists_foldl_addPosting (List.range live.length)
    (c.keepRows live).clearPostings
  rw [he] at hp' he'
  unfold Column.permute
  dsimp only
  rw [he, he']
  obtain ⟨t, ht⟩ := exists_fillIndex live.length 0
    ({ c.keepRows live with postings := p' }.clearIndex)
  exact ⟨p', t, hp'.trans hp, ht⟩

theorem getD_map {α β : Type} (f : α → β) {l : List α} {a : α} (h : l[i]? = some a) (d : β) :
    (l.map f).getD i d = f a := by
  rw [List.getD_eq_getElem?_getD, List.getElem?_map, h]
  rfl

omit [ColumnIndex ι] in
theorem cellAt_keepRows (h : c.Sized n) {src : InternalId} (hi : live[i]? = some src) :
    (c.keepRows live).cellAt i = c.cellAt src := by
  unfold keepRows cellAt
  by_cases ht : c.type = .text
  · simp only [ht, if_true, getD_map _ hi]
  · obtain ⟨h3, h4, h5⟩ := h.plain ht
    simp only [ht, if_false, getD_map _ hi, h3, h4, h5, List.getD_nil]

omit [ColumnIndex ι] in
theorem Sized.keepRows (h : c.Sized n) (live : List InternalId) :
    (c.keepRows live).Sized live.length := by
  unfold Column.keepRows
  dsimp only
  split_ifs with ht
  · exact ⟨by simp, by simp, fun _ => by simp, fun hn => absurd ht hn⟩
  · exact ⟨by simp, by simp, fun hn => absurd hn ht, h.plain⟩

/-- The rows `live` in this order. -/
def kept (rows : List ColRow) (live : List InternalId) : List ColRow :=
  live.map fun src => rows.getD src (false, attrNull)

/-- Keeping every live row once, in any order, keeps the live values. -/
theorem perm_liveValues_kept (hn : live.Nodup)
    (hlive : ∀ i, i ∈ live ↔ ∃ v, rows[i]? = some (true, v)) :
    (liveValues (kept rows live)).Perm (liveValues rows) := by
  set get := fun src => rows.getD src (false, attrNull) with hget
  have hperm : live.Perm ((List.range rows.length).filter fun i => (get i).1) := by
    refine (List.perm_ext_iff_of_nodup hn (List.nodup_range.filter _)).2 fun i => ?_
    rw [hlive, List.mem_filter, List.mem_range]
    constructor
    · rintro ⟨v, hv⟩
      exact ⟨(List.getElem?_eq_some_iff.1 hv).1, by simp [hget, hv]⟩
    · rintro ⟨hlt, hi⟩
      have hg : get i = rows[i] := List.getD_eq_getElem _ _ hlt
      refine ⟨rows[i].2, ?_⟩
      rw [List.getElem?_eq_getElem hlt, ← hg]
      exact congrArg some (Prod.ext hi rfl)
  have hrows : rows = (List.range rows.length).map get := by
    refine List.ext_getElem (by simp) fun i h1 _ => ?_
    rw [List.getElem_map, List.getElem_range]
    exact (List.getD_eq_getElem _ _ h1).symm
  have hall : (kept rows live).filter Prod.fst = kept rows live := by
    rw [List.filter_eq_self]
    intro r hr
    obtain ⟨i, hi, rfl⟩ := List.mem_map.1 hr
    obtain ⟨v, hv⟩ := (hlive i).1 hi
    simp [hv]
  unfold liveValues
  rw [hall]
  refine List.Perm.map _ ((hperm.map get).trans (List.Perm.of_eq ?_))
  conv_rhs => rw [hrows]
  rw [List.filter_map]
  rfl

theorem dict_permute (c : Column ι) (live : List InternalId) :
    (c.permute live).state.dict = c.dict := by
  obtain ⟨p, t, -, he⟩ := exists_permute c live
  rw [he]
  unfold Column.keepRows
  dsimp only
  split_ifs <;> rfl

theorem Ok.permute (h : c.Ok rows) (hn : live.Nodup)
    (hlive : ∀ i, i ∈ live ↔ ∃ v, rows[i]? = some (true, v)) :
    (c.permute live).state.Ok (kept rows live) := by
  obtain ⟨p, t, hp, he⟩ := exists_permute c live
  have hkeep : (c.keepRows live).Ok (kept rows live) := by
    refine h.recell ?_ ?_ (fun i r hr => ?_) (perm_liveValues_kept hn hlive)
    · unfold Column.keepRows
      dsimp only
      split_ifs <;> rfl
    · rw [kept, List.length_map]
      exact h.sized.keepRows live
    · obtain ⟨src, hsrc, rfl⟩ := Option.map_eq_some_iff.1 ((List.getElem?_map ..).symm.trans hr)
      obtain ⟨v, hv⟩ := (hlive src).1 (List.mem_of_getElem? hsrc)
      rw [cellAt_keepRows h.sized hsrc, List.getD_eq_getElem?_getD, hv]
      exact h.stores_at hv
  rw [he]
  refine hkeep.derived (hp.trans ?_) t
  unfold Column.keepRows
  dsimp only
  split_ifs <;> rfl

theorem getD_map_const {α : Type} (l : List α) (k : ℕ) : (l.map fun _ => 0).getD k 0 = 0 := by
  rw [List.getD_eq_getElem?_getD, List.getElem?_map]
  cases l[k]? <;> rfl

theorem dict_clearRows (c : Column ι) : c.clearRows.dict = c.dict := by
  unfold Column.clearRows clearIndex
  dsimp only
  split_ifs <;> rfl

theorem Ok.clearRows (h : c.Ok rows) : c.clearRows.Ok [] := by
  unfold Column.clearRows clearIndex
  dsimp only
  by_cases ht : c.type = .text
  · rw [if_pos ht]
    exact
    { dict := ⟨h.dict.codes, (List.length_map _).trans h.dict.count,
        (List.length_map _).trans h.dict.postings, h.dict.small, h.dict.strings⟩
      sized := ⟨rfl, rfl, fun _ => ⟨rfl, rfl, rfl⟩, fun hn => absurd ht hn⟩
      stores := by simp
      count := fun k => getD_map_const c.count k
      docCount := fun _ => rfl
      docLen := fun _ => rfl }
  · rw [if_neg ht]
    exact
    { dict := ⟨h.dict.codes, (List.length_map _).trans h.dict.count,
        (List.length_map _).trans h.dict.postings, h.dict.small, h.dict.strings⟩
      sized := ⟨rfl, rfl, fun hn => absurd hn ht, fun _ => h.sized.plain ht⟩
      stores := by simp
      count := fun k => getD_map_const c.count k
      docCount := fun hn => absurd hn ht
      docLen := fun hn => absurd hn ht }

/-- The rows, none of them live. -/
def unpublished (rows : List ColRow) : List ColRow := rows.map fun r => (false, r.2)

omit [ColumnIndex ι] in
theorem unpublished_unpublished (rows : List ColRow) :
    unpublished (unpublished rows) = unpublished rows := by
  unfold unpublished
  rw [List.map_map]
  rfl

omit [ColumnIndex ι] in
theorem countP_unpublished (rows : List ColRow) (p : AttrValue → Bool) :
    (unpublished rows).countP (fun r => r.1 && p r.2) = 0 := by
  refine List.countP_eq_zero.2 fun r hr => ?_
  obtain ⟨r', -, rfl⟩ := List.mem_map.1 hr
  simp

omit [ColumnIndex ι] in
theorem sum_unpublished (rows : List ColRow) :
    ((unpublished rows).map fun r => if r.1 then tokenCount r.2 else 0).sum = 0 := by
  refine List.sum_eq_zero fun n hn => ?_
  obtain ⟨r, hr, rfl⟩ := List.mem_map.1 hn
  obtain ⟨r', -, rfl⟩ := List.mem_map.1 hr
  rfl

omit [ColumnIndex ι] in
theorem Ok.stores_unpublished (h : c.Ok rows) (i : InternalId) (r : ColRow)
    (hr : (unpublished rows)[i]? = some r) : c.Stores (c.cellAt i) r.2 := by
  obtain ⟨r', hr', rfl⟩ := Option.map_eq_some_iff.1 ((List.getElem?_map ..).symm.trans hr)
  exact h.stores i r' hr'

theorem dict_clearDerived (c : Column ι) : c.clearDerived.dict = c.dict := by
  obtain ⟨p, -, he⟩ := exists_clearPostings c
  unfold Column.clearDerived
  rw [he]

theorem Ok.clearDerived (h : c.Ok rows) : c.clearDerived.Ok (unpublished rows) := by
  have hlen : (unpublished rows).length = rows.length := List.length_map _
  obtain ⟨p, hp, he⟩ := exists_clearPostings c
  have hcount : ∀ k, c.clearDerived.count.getD k 0 = 0 := fun k => by
    unfold Column.clearDerived
    dsimp only
    split_ifs with ht
    · exact getD_map_const c.count k
    · -- nothing is counted in a column of numbers
      rw [h.count, List.countP_eq_zero]
      intro r _
      have hnone : c.codesOf r.2 = [] := by
        unfold codesOf
        split_ifs
        · rfl
        · split <;> simp_all
      simp [hnone]
  have hlength : c.clearDerived.count.length = c.count.length := by
    unfold Column.clearDerived
    dsimp only
    split_ifs
    · exact List.length_map _
    · rfl
  have hcl : c.clearDerived = { c with
      count := c.clearDerived.count, postings := p, liveDocCount := c.clearDerived.liveDocCount
      totalDocLen := c.clearDerived.totalDocLen, index := c.clearDerived.index } := by
    conv_lhs => unfold Column.clearDerived
    rw [he]
    rfl
  have hdocs : c.type = .text → c.clearDerived.liveDocCount = 0 ∧ c.clearDerived.totalDocLen = 0 :=
    fun ht => ⟨if_pos ht, if_pos ht⟩
  rw [hcl]
  exact
  { dict := ⟨h.dict.codes, hlength.trans h.dict.count, hp.trans h.dict.postings, h.dict.small,
    h.dict.strings⟩
    sized := hlen ▸ ⟨h.sized.data, h.sized.present, h.sized.text, h.sized.plain⟩
    stores := fun i r hr => (h.stores_unpublished i r hr).congr rfl rfl
    count := fun k =>
      (hcount k).trans (countP_unpublished rows fun v => decide (k ∈ c.codesOf v)).symm
    docCount := fun ht => (hdocs ht).1.trans (countP_unpublished rows fun v => !v.isNull).symm
    docLen := fun ht => (hdocs ht).2.trans (sum_unpublished rows).symm }

theorem dict_rebuildRow (c : Column ι) (i : InternalId) :
    (c.rebuildRow i).state.dict = c.dict := by
  obtain ⟨p, -, he⟩ := exists_posted (c.adjust i true) i
  rw [Column.rebuildRow, he]
  exact dict_adjust c i true

theorem Ok.rebuildRow (h : c.Ok rows) (hi : rows[i]? = some (false, v)) :
    (c.rebuildRow i).state.Ok (rows.set i (true, v)) :=
  (h.adjust hi).posted i

/-! ### Columns keep their type -/

omit [ColumnIndex ι] in
theorem type_cellOf (c : Column ι) (v : AttrValue) : (c.cellOf v).1.type = c.type := by
  unfold Column.cellOf
  split_ifs
  · rfl
  · exact type_internTerms c v.text
  · exact type_intern c v.text
  · rfl

omit [ColumnIndex ι] in
theorem type_push (c : Column ι) (x : Cell) : (c.push x).type = c.type := by
  unfold Column.push
  dsimp only
  split_ifs <;> rfl

omit [ColumnIndex ι] in
theorem type_put (c : Column ι) (i : InternalId) (x : Cell) : (c.put i x).type = c.type := by
  unfold Column.put
  dsimp only
  split_ifs <;> rfl

omit [ColumnIndex ι] in
theorem type_addPosting (c : Column ι) (i : InternalId) : (c.addPosting i).type = c.type := by
  unfold Column.addPosting
  split_ifs <;> rfl

omit [ColumnIndex ι] in
theorem type_appendValue (c : Column ι) (v : AttrValue) : (c.appendValue v).type = c.type := by
  rw [appendValue_eq, type_push, type_cellOf]

omit [ColumnIndex ι] in
theorem type_setValue (c : Column ι) (i : InternalId) (v : AttrValue) :
    (c.setValue i v).type = c.type := by
  unfold Column.setValue
  dsimp only
  split_ifs
  · rfl
  · rfl
  · exact type_internTerms c v.text
  · exact type_intern c v.text
  · rfl

omit [ColumnIndex ι] in
theorem type_posted (o : Outcome (Column ι) Unit) (i : InternalId) :
    (o.andThen fun _ c => .ok () (c.addPosting i)).state.type = o.state.type := by
  obtain ⟨p, -, he⟩ := exists_posted o i
  rw [he]

theorem type_setRow (c : Column ι) (i : InternalId) (v : AttrValue) :
    (c.setRow i v).state.type = c.type := by
  rw [setRow_eq, type_posted, type_adjust, type_setValue, type_adjust]

theorem type_rebuildRow (c : Column ι) (i : InternalId) :
    (c.rebuildRow i).state.type = c.type := by
  rw [Column.rebuildRow, type_posted, type_adjust]

omit [ColumnIndex ι] in
theorem type_keepRows (c : Column ι) (live : List InternalId) :
    (c.keepRows live).type = c.type := by
  unfold Column.keepRows
  dsimp only
  split_ifs <;> rfl

theorem type_permute (c : Column ι) (live : List InternalId) :
    (c.permute live).state.type = c.type := by
  obtain ⟨p, t, -, he⟩ := exists_permute c live
  rw [he]
  exact type_keepRows c live

theorem type_clearRows (c : Column ι) : c.clearRows.type = c.type := by
  unfold Column.clearRows clearIndex
  dsimp only
  split_ifs <;> rfl

theorem type_clearDerived (c : Column ι) : c.clearDerived.type = c.type := by
  obtain ⟨p, -, he⟩ := exists_clearPostings c
  unfold Column.clearDerived
  rw [he]

/-! ### Where the index stays as it is -/

omit [ColumnIndex ι] in
theorem index_intern (c : Column ι) (s : Bytes) : (c.intern s).1.index = c.index := by
  rw [rest_intern]

omit [ColumnIndex ι] in
theorem index_internTerms (c : Column ι) (text : Bytes) :
    (c.internTerms text).1.index = c.index := by
  rw [rest_internTerms]

omit [ColumnIndex ι] in
theorem index_appendValue (c : Column ι) (v : AttrValue) : (c.appendValue v).index = c.index := by
  unfold Column.appendValue
  dsimp only
  split_ifs
  · rfl
  · rfl
  · exact index_internTerms c v.text
  · exact index_intern c v.text
  · rfl

omit [ColumnIndex ι] in
theorem index_setValue (c : Column ι) (i : InternalId) (v : AttrValue) :
    (c.setValue i v).index = c.index := by
  unfold Column.setValue
  dsimp only
  split_ifs
  · rfl
  · rfl
  · exact index_internTerms c v.text
  · exact index_intern c v.text
  · rfl

omit [ColumnIndex ι] in
theorem index_push (c : Column ι) (x : Cell) : (c.push x).index = c.index := by
  unfold Column.push
  dsimp only
  split_ifs <;> rfl

omit [ColumnIndex ι] in
theorem index_put (c : Column ι) (i : InternalId) (x : Cell) : (c.put i x).index = c.index := by
  unfold Column.put
  dsimp only
  split_ifs <;> rfl

omit [ColumnIndex ι] in
theorem index_keepRows (c : Column ι) (live : List InternalId) :
    (c.keepRows live).index = c.index := by
  unfold Column.keepRows
  dsimp only
  split_ifs <;> rfl

omit [ColumnIndex ι] in
theorem index_addPosting (c : Column ι) (i : InternalId) : (c.addPosting i).index = c.index := by
  unfold Column.addPosting
  split_ifs <;> rfl

omit [ColumnIndex ι] in
theorem index_adjustCount (c : Column ι) (i : InternalId) (b : Bool) :
    (c.adjustCount i b).index = c.index := by
  unfold Column.adjustCount
  dsimp only
  split_ifs <;> rfl

/-- Nothing throws in a column without an index. -/
theorem adjust_of_index_none (h : c.index = none) (i : InternalId) (b : Bool) :
    c.adjust i b = .ok () (c.adjustCount i b) := by
  have h' : (c.adjustCount i b).index = none := (index_adjustCount c i b).trans h
  unfold Column.adjust Column.adjustIndex
  rw [h']

end Column

end Metadata

end Vdb
