import Vdb.Metadata.Postings

/-!
# The lists of a column without an index

Only columns of numbers have an index, and so nothing throws in a column with posting lists.  Its
lists keep a rule for as long as every string has a code of its own.
-/

namespace Vdb

namespace Metadata

namespace Column

variable {ι : Type} {c c' : Column ι} {v : AttrValue} {i n : ℕ} {R : PostRule}
  {S S' N N' : InternalId → Prop} {live : List InternalId}

/-- A column without an index, whose lists obey the rule if there are codes enough. -/
structure Listed (R : PostRule) (S N : InternalId → Prop) (c : Column ι) (n : ℕ) : Prop where
  sized : c.Sized n
  unindexed : c.index = none
  posted : c.dict.length ≤ 2 ^ 32 → c.Posted R S N n

theorem Listed.mono (h : c.Listed R S N n) (hS : ∀ i < n, S' i → S i) (hN : ∀ i, N i → N' i) :
    c.Listed R S' N' n where
  sized := h.sized
  unindexed := h.unindexed
  posted hfit :=
    { h.posted hfit with
      named := fun k i hi => hN i ((h.posted hfit).named k i hi)
      posted := fun i hi hs => (h.posted hfit).posted i hi (hS i hi hs) }

/-- Where `D` holds of a row and a value, overwriting the row keeps the rule. -/
def Adheres (R : PostRule) (D : Column ι → InternalId → AttrValue → Prop) : Prop :=
  ∀ c n S i v, c.Posted R S (· < n) n → i < n → S i → D c i v → c.Admits R i v

theorem length_dict_internTerms_ge (c : Column ι) (text : Bytes) :
    c.dict.length ≤ (c.internTerms text).1.dict.length :=
  length_dict_foldl_internToken (tokenizeText text) (c, [])

theorem length_dict_cellOf (c : Column ι) (v : AttrValue) :
    c.dict.length ≤ (c.cellOf v).1.dict.length := by
  unfold cellOf
  split_ifs
  · exact le_rfl
  · exact length_dict_internTerms_ge c v.text
  · exact length_dict_intern c v.text
  · exact le_rfl

theorem length_dict_setValue (c : Column ι) (i : InternalId) (v : AttrValue) :
    c.dict.length ≤ (c.setValue i v).dict.length := by
  unfold Column.setValue
  dsimp only
  split_ifs
  · exact le_rfl
  · exact le_rfl
  · exact length_dict_internTerms_ge c v.text
  · exact length_dict_intern c v.text
  · exact le_rfl

theorem length_dict_reread (c t : Column ι) : c.dict.length ≤ (c.reread t).dict.length := by
  have hfold : ∀ (l : List InternalId) (y : Column ι),
      y.dict.length ≤ (l.foldl Column.reintern y).dict.length := by
    intro l
    induction l with
    | nil => exact fun y => le_rfl
    | cons i l ih =>
      intro y
      have hone : y.dict.length ≤ (y.reintern i).dict.length := by
        unfold Column.reintern
        split_ifs
        · exact length_dict_internTerms_ge y _
        · exact le_rfl
      exact hone.trans (ih (y.reintern i))
  rw [Column.reread, (sameData_sizeDerived _).dict]
  split_ifs
  · exact hfold (List.range c.rawText.length) { c.readBack t with
      rawText := c.rawText, textTerms := List.replicate c.rawText.length []
      docLen := List.replicate c.rawText.length 0 }
  · exact le_rfl

section Operations

variable [ColumnIndex ι]

theorem listed_new {spec : AttrSpec} (h : spec.indexed = false) :
    (new spec : Column ι).Listed R S N 0 where
  sized := sized_new spec
  unindexed := by
    unfold new
    dsimp only
    rw [h]
    rfl
  posted _ := posted_new spec

theorem length_dict_setRow (c : Column ι) (i : InternalId) (v : AttrValue) :
    c.dict.length ≤ (c.setRow i v).state.dict.length := by
  have hgrows := length_dict_setValue (c.adjust i false).state i v
  obtain ⟨p, -, he⟩ := exists_posted (((c.adjust i false).state.setValue i v).adjust i true) i
  rw [setRow_eq, he]
  change _ ≤ (((c.adjust i false).state.setValue i v).adjust i true).state.dict.length
  rwa [dict_adjust, ← dict_adjust c i false]

omit [ColumnIndex ι] in
theorem Listed.appendValue (h : c.Listed R S (· < n) n) (hv : c.Takes v) :
    ((c.appendValue v).addPosting n).Listed R S (· < n + 1) (n + 1) where
  sized := (sameRows_addPosting _ _).sized (h.sized.appendValue v)
  unindexed := (index_addPosting _ n).trans ((index_appendValue c v).trans h.unindexed)
  posted hfit := by
    refine (h.posted ?_).appendValue hv hfit
    rw [dict_addPosting, appendValue_eq, dict_push] at hfit
    exact (length_dict_cellOf c v).trans hfit

omit [ColumnIndex ι] in
theorem Listed.appendCopy (h : c.Listed R S (· < n) n) (src : InternalId) :
    ((c.appendCopy src).addPosting n).Listed R S (· < n + 1) (n + 1) where
  sized := by
    rw [appendCopy_eq]
    exact (sameRows_addPosting _ _).sized (h.sized.push _)
  unindexed := by
    rw [index_addPosting, appendCopy_eq, index_push, h.unindexed]
  posted hfit := by
    refine (h.posted ?_).appendCopy src
    rwa [dict_addPosting, appendCopy_eq, dict_push] at hfit

theorem Listed.adjust (h : c.Listed R S N n) (i : InternalId) (b : Bool) :
    (c.adjust i b).state.Listed R S N n where
  sized := (sameRows_adjust c i b).sized h.sized
  unindexed := by
    rw [adjust_of_index_none h.unindexed]
    exact (index_adjustCount c i b).trans h.unindexed
  posted hfit := by
    refine (h.posted ?_).adjust i b
    rwa [dict_adjust] at hfit

theorem Listed.setRow (h : c.Listed R S (· < n) n) (hv : c.Takes v)
    (hi : i < n → S i → c.Posted R S (· < n) n → c.Admits R i v) :
    (c.setRow i v).state.Listed R S (· < n) n where
  sized := h.sized.setRow i v
  unindexed := by
    rw [setRow_of_index_none h.unindexed, index_addPosting, index_adjustCount, index_setValue,
      index_adjustCount, h.unindexed]
  posted hfit := by
    have hposted := h.posted ((length_dict_setRow c i v).trans hfit)
    exact hposted.setRow h.unindexed hv (fun hlt hs => hi hlt hs hposted) hfit

theorem fillIndex_of_index_none (h : c.index = none) (m : ℕ) (id : InternalId) :
    fillIndex m id c = .ok () c := by
  induction m generalizing id with
  | zero => rfl
  | succ m ih =>
    have hadjust : c.adjustIndex id true = .ok () c := by
      unfold adjustIndex
      rw [h]
    rw [fillIndex, hadjust]
    exact ih (id + 1)

theorem index_permute (h : c.index = none) (live : List InternalId) :
    (c.permute live).state.index = none := by
  obtain ⟨p, -, hp⟩ := exists_clearPostings (c.keepRows live)
  obtain ⟨p', -, hp'⟩ := exists_foldl_addPosting (List.range live.length)
    (c.keepRows live).clearPostings
  have hnone : ((List.range live.length).foldl addPosting
      (c.keepRows live).clearPostings).clearIndex.index = none := by
    rw [hp', hp]
    exact congrArg (Option.map _) ((index_keepRows c live).trans h)
  unfold Column.permute
  dsimp only
  rw [fillIndex_of_index_none hnone]
  exact hnone

theorem Listed.permute (h : c.Listed R S N n) (live : List InternalId) :
    (c.permute live).state.Listed R (fun _ => True) (· < live.length) live.length where
  sized := h.sized.permute live
  unindexed := index_permute h.unindexed live
  posted hfit := by
    refine (h.posted ?_).permute live
    rwa [dict_permute] at hfit

theorem Listed.reread (h : c.Listed R S N n) {spec : AttrSpec} (hspec : spec.indexed = false) :
    (c.reread (new spec)).clearDerived.Listed R (fun _ => False) (fun _ => False) n := by
  obtain ⟨hsized, hindex⟩ := reread_keeps (t := new spec) h.sized ⟨rfl, rfl, rfl⟩
  exact
  { sized := (sameData_clearDerived _).toSameRows.sized hsized
    unindexed := by
      have hnone : (c.reread (new spec)).index = none := by
        rw [hindex]
        exact (listed_new (R := R) (S := S) (N := N) hspec).unindexed
      unfold Column.clearDerived
      dsimp only
      rw [hnone]
      rfl
    posted := fun hfit => by
      refine (h.posted ?_).reread spec
      rw [dict_clearDerived] at hfit
      exact (length_dict_reread c _).trans hfit }

theorem Listed.rebuildRow (h : c.Listed R S N n) (hi : ¬ N i) (he : c.rebuildRow i = .ok () c') :
    c'.Listed R (fun j => S j ∨ j = i) (fun j => N j ∨ j = i) n where
  sized := h.sized.rebuildRow he
  unindexed := by
    obtain ⟨_, c₁, ha, he⟩ := Outcome.andThen_ok he
    cases he
    rw [adjust_of_index_none h.unindexed] at ha
    cases ha
    rw [index_addPosting, index_adjustCount, h.unindexed]
  posted hfit := by
    refine (h.posted ?_).rebuildRow hi he
    rwa [(sameData_rebuildRow he).dict] at hfit

end Operations

end Column

/-! ### Watching the columns of a store -/

namespace Column

variable {ι : Type} {c : Column ι} {n attr a : ℕ} {R : PostRule} {S S' N : InternalId → Prop}
  {schema : List AttrSpec}

/-- What the operations must keep for `P S` to be a fact about the columns of a store whose live
rows are among those in `S`.  While a store is rebuilt, `Q N` is known where the rows in `N` have
been published. -/
structure Survives [ColumnIndex ι] (schema : List AttrSpec) (A : ℕ → AttrValue → Prop)
    (P Q : (InternalId → Prop) → ℕ → Column ι → ℕ → Prop) : Prop where
  rowwise : ∀ S, Column.Rowwise (P S) A
  mono : ∀ {S S' a c n}, P S a c n → (∀ i < n, S' i → S i) → P S' a c n
  new : ∀ {S a} spec, schema[a]? = some spec → P S a (Column.new spec) 0
  permute : ∀ {S a c c' n live}, P S a c n → c.permute live = .ok () c' →
    P (fun _ => True) a c' live.length
  reread : ∀ {S a c n} spec, schema[a]? = some spec → P S a c n →
    Q (fun _ => False) a (c.reread (Column.new spec)).clearDerived n
  rebuildRow : ∀ {N a c c' n i}, Q N a c n → i < n → ¬ N i → c.rebuildRow i = .ok () c' →
    Q (fun j => N j ∨ j = i) a c' n
  rebuilt : ∀ {N a c n}, Q N a c n → P N a c n

theorem survives_hasSize [ColumnIndex ι] (schema : List AttrSpec) :
    Column.Survives (ι := ι) schema anyValue (fun _ => HasSize) fun _ => HasSize where
  rowwise _ := rowwise_hasSize
  mono h _ := h
  new spec _ := sized_new spec
  permute {S a c c' n live} h he := by
    have hpermuted := Column.Sized.permute h live
    rwa [he] at hpermuted
  reread spec _ h := Column.Sized.reread h spec
  rebuildRow h _ _ he := Column.Sized.rebuildRow h he
  rebuilt h := h

/-- The lists of column `attr` are watched, and nothing but the sizes of the others. -/
def Watches (R : PostRule) (attr : ℕ) (S : InternalId → Prop) (a : ℕ) (c : Column ι)
    (n : ℕ) : Prop :=
  c.Sized n ∧ (a = attr → c.Listed R S (· < n) n)

/-- While the rows are published, the lists name none but those. -/
def WatchesAt (R : PostRule) (attr : ℕ) (N : InternalId → Prop) (a : ℕ) (c : Column ι)
    (n : ℕ) : Prop :=
  c.Sized n ∧ (∀ i, N i → i < n) ∧ (a = attr → c.Listed R N N n)

/-- Where the column is watched, a Bool is `0` or `1`. -/
def boolsOk (_ : ℕ) (v : AttrValue) : Prop := v.type = .bool → v.raw = 0 ∨ v.raw = 1

variable [ColumnIndex ι]

theorem rowwise_watches (R : PostRule) (attr : ℕ) (S : InternalId → Prop) :
    Column.Rowwise (ι := ι) (Watches R attr S) boolsOk where
  sized h := h.1
  append h hv hb :=
    ⟨(sameRows_addPosting _ _).sized (h.1.appendValue _), fun ha => (h.2 ha).appendValue ⟨hv, hb⟩⟩
  copy src h := by
    refine ⟨?_, fun ha => (h.2 ha).appendCopy src⟩
    rw [appendCopy_eq]
    exact (sameRows_addPosting _ _).sized (h.1.push _)
  adjust i b h := ⟨(sameRows_adjust _ i b).sized h.1, fun ha => (h.2 ha).adjust i b⟩

/-- The lists are watched in a column without an index. -/
theorem survives_watches (hplain : ∀ spec, schema[attr]? = some spec → spec.indexed = false) :
    Column.Survives (ι := ι) schema boolsOk (Watches R attr) (WatchesAt R attr) where
  rowwise := rowwise_watches R attr
  mono h hS := ⟨h.1, fun ha => (h.2 ha).mono hS fun _ => id⟩
  new spec hspec := ⟨sized_new spec, fun ha => listed_new (hplain spec (ha ▸ hspec))⟩
  permute {S a c c' n live} h he := by
    have hsized := h.1.permute live
    refine ⟨by rwa [he] at hsized, fun ha => ?_⟩
    have hlisted := (h.2 ha).permute live
    rwa [he] at hlisted
  reread spec hspec h :=
    ⟨h.1.reread spec, fun _ => False.elim, fun ha => (h.2 ha).reread (hplain spec (ha ▸ hspec))⟩
  rebuildRow h hlt hi he :=
    ⟨h.1.rebuildRow he, fun j hj => hj.elim (h.2.1 j) fun hji => hji ▸ hlt,
      fun ha => (h.2.2 ha).rebuildRow hi he⟩
  rebuilt h := ⟨h.1, fun ha => (h.2.2 ha).mono (fun _ _ => id) h.2.1⟩

end Column

end Metadata

end Vdb
