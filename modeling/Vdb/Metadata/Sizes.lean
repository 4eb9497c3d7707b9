import Vdb.Metadata.Lifecycle

/-!
# The sizes of the arrays

The arrays of a column keep one entry for each row whatever is stored in them: also where a
dictionary has outgrown its codes, or a Bool is neither `0` nor `1`.
-/

namespace Vdb

namespace Metadata

namespace Column

variable {ι : Type} {c c' : Column ι} {v : AttrValue} {i n : ℕ}

/-- The columns differ in nothing that is kept by row. -/
structure SameRows (c c' : Column ι) : Prop where
  type : c'.type = c.type
  data : c'.data = c.data
  present : c'.present = c.present
  textTerms : c'.textTerms = c.textTerms
  docLen : c'.docLen = c.docLen
  rawText : c'.rawText = c.rawText

/-- The columns differ in nothing but the counts, the postings and the index. -/
structure SameData (c c' : Column ι) : Prop extends SameRows c c' where
  dict : c'.dict = c.dict
  codes : c'.codes = c.codes

theorem SameData.refl (c : Column ι) : c.SameData c := ⟨⟨rfl, rfl, rfl, rfl, rfl, rfl⟩, rfl, rfl⟩

theorem SameData.trans {c₁ c₂ c₃ : Column ι} (h : c₁.SameData c₂) (h' : c₂.SameData c₃) :
    c₁.SameData c₃ where
  type := h'.type.trans h.type
  data := h'.data.trans h.data
  present := h'.present.trans h.present
  textTerms := h'.textTerms.trans h.textTerms
  docLen := h'.docLen.trans h.docLen
  rawText := h'.rawText.trans h.rawText
  dict := h'.dict.trans h.dict
  codes := h'.codes.trans h.codes

/-- The values of the rows are the same. -/
theorem SameData.get (h : c.SameData c') (i : InternalId) : c'.get i = c.get i := by
  unfold Column.get isPresent
  rw [h.present, h.type, h.data, h.dict, h.rawText]

theorem sameData_sizeDerived (c : Column ι) : c.SameData c.sizeDerived := by
  unfold sizeDerived
  split <;> exact ⟨⟨rfl, rfl, rfl, rfl, rfl, rfl⟩, rfl, rfl⟩

theorem sameData_restored (c t : Column ι) : c.SameData (c.restored t) := by
  obtain ⟨⟨h1, h2, h3, h4, h5, h6⟩, h7, h8⟩ := sameData_sizeDerived { c with
    liveDocCount := t.liveDocCount, totalDocLen := t.totalDocLen, index := t.index }
  exact ⟨⟨h1, h2, h3, h4, h5, h6⟩, h7, h8⟩

theorem sameData_addPosting (c : Column ι) (i : InternalId) : c.SameData (c.addPosting i) := by
  unfold addPosting
  split_ifs <;> exact ⟨⟨rfl, rfl, rfl, rfl, rfl, rfl⟩, rfl, rfl⟩

theorem SameRows.sized (hs : c.SameRows c') (h : c.Sized n) : c'.Sized n where
  data := hs.data ▸ h.data
  present := hs.present ▸ h.present
  text ht := by
    rw [hs.textTerms, hs.docLen, hs.rawText]
    exact h.text (hs.type ▸ ht)
  plain ht := by
    rw [hs.textTerms, hs.docLen, hs.rawText]
    exact h.plain (hs.type ▸ ht)

theorem sameRows_intern (c : Column ι) (s : Bytes) : c.SameRows (c.intern s).1 := by
  rw [rest_intern]
  exact ⟨rfl, rfl, rfl, rfl, rfl, rfl⟩

theorem sameRows_internTerms (c : Column ι) (text : Bytes) :
    c.SameRows (c.internTerms text).1 := by
  rw [rest_internTerms]
  exact ⟨rfl, rfl, rfl, rfl, rfl, rfl⟩

theorem sameRows_cellOf (c : Column ι) (v : AttrValue) : c.SameRows (c.cellOf v).1 := by
  unfold cellOf
  split_ifs
  · exact ⟨rfl, rfl, rfl, rfl, rfl, rfl⟩
  · exact sameRows_internTerms c v.text
  · exact sameRows_intern c v.text
  · exact ⟨rfl, rfl, rfl, rfl, rfl, rfl⟩

theorem sameRows_adjustCount (c : Column ι) (i : InternalId) (b : Bool) :
    c.SameRows (c.adjustCount i b) := by
  unfold adjustCount
  dsimp only
  split_ifs <;> exact ⟨rfl, rfl, rfl, rfl, rfl, rfl⟩

theorem sameRows_addPosting (c : Column ι) (i : InternalId) : c.SameRows (c.addPosting i) := by
  unfold addPosting
  split_ifs <;> exact ⟨rfl, rfl, rfl, rfl, rfl, rfl⟩

theorem Sized.appendValue (h : c.Sized n) (v : AttrValue) : (c.appendValue v).Sized (n + 1) := by
  rw [appendValue_eq]
  exact ((sameRows_cellOf c v).sized h).push _

theorem Sized.setValue (h : c.Sized n) (i : InternalId) (v : AttrValue) :
    (c.setValue i v).Sized n := by
  by_cases ht : c.type = .text
  · -- a text leaves the data as it is
    obtain ⟨h1, h2, h3⟩ := h.text ht
    unfold Column.setValue
    dsimp only
    simp only [ht, if_true]
    by_cases hnull : v.isNull = true
    · rw [if_pos hnull]
      exact ⟨by simp [h.data], by simp [h.present], fun _ => by simp [h1, h2, h3],
        fun hn => absurd rfl hn⟩
    · rw [if_neg hnull]
      have hrest := rest_internTerms c v.text
      rw [hrest]
      exact ⟨by simp [h.data], by simp [h.present], fun _ => by simp [h1, h2, h3],
        fun hn => absurd ht hn⟩
  · have heq : c.setValue i v = (c.cellOf v).1.put i (c.cellOf v).2 := by
      unfold Column.setValue cellOf Column.put
      by_cases hnull : v.isNull
      · simp only [hnull, if_true]
      · by_cases htag : v.type = .tag
        · simp only [hnull, ht, htag, if_true, type_intern, Bool.false_eq_true, if_false]
        · simp only [hnull, ht, htag, Bool.false_eq_true, if_false]
    rw [heq]
    exact ((sameRows_cellOf c v).sized h).put i _

theorem Sized.posted {o : Outcome (Column ι) Unit} (h : o.state.Sized n) (i : InternalId) :
    (o.andThen fun _ c => .ok () (c.addPosting i)).state.Sized n := by
  obtain ⟨p, -, he⟩ := exists_posted o i
  rw [he]
  exact ⟨h.data, h.present, h.text, h.plain⟩

variable [ColumnIndex ι]

theorem sameRows_adjust (c : Column ι) (i : InternalId) (b : Bool) :
    c.SameRows (c.adjust i b).state := by
  obtain ⟨t, ht⟩ := exists_adjustIndex (c.adjustCount i b) i b
  rw [Column.adjust, ht]
  have h := sameRows_adjustCount c i b
  exact ⟨h.type, h.data, h.present, h.textTerms, h.docLen, h.rawText⟩

theorem sameData_clearDerived (c : Column ι) : c.SameData c.clearDerived := by
  unfold clearDerived clearPostings
  split_ifs <;> exact ⟨⟨rfl, rfl, rfl, rfl, rfl, rfl⟩, rfl, rfl⟩

theorem sameData_adjust (c : Column ι) (i : InternalId) (b : Bool) :
    c.SameData (c.adjust i b).state := by
  obtain ⟨t, ht⟩ := exists_adjustIndex (c.adjustCount i b) i b
  rw [Column.adjust, ht]
  unfold adjustCount
  dsimp only
  split_ifs <;> exact ⟨⟨rfl, rfl, rfl, rfl, rfl, rfl⟩, rfl, rfl⟩

theorem sameData_rebuildRow {i : InternalId} (he : c.rebuildRow i = .ok () c') :
    c.SameData c' := by
  obtain ⟨_, c₁, ha, he⟩ := Outcome.andThen_ok he
  cases he
  have hadjust := sameData_adjust c i true
  rw [ha] at hadjust
  exact hadjust.trans (sameData_addPosting c₁ i)

theorem Sized.setRow (h : c.Sized n) (i : InternalId) (v : AttrValue) :
    (c.setRow i v).state.Sized n := by
  rw [setRow_eq]
  have hset := ((sameRows_adjust c i false).sized h).setValue i v
  exact ((sameRows_adjust _ i true).sized hset).posted i

theorem Sized.permute (h : c.Sized n) (live : List InternalId) :
    (c.permute live).state.Sized live.length := by
  obtain ⟨p, t, -, he⟩ := exists_permute c live
  have hkeep := h.keepRows live
  rw [he]
  exact ⟨hkeep.data, hkeep.present, hkeep.text, hkeep.plain⟩

theorem Sized.clearRows (h : c.Sized n) : c.clearRows.Sized 0 := by
  unfold Column.clearRows clearIndex
  dsimp only
  by_cases ht : c.type = .text
  · rw [if_pos ht]
    exact ⟨rfl, rfl, fun _ => ⟨rfl, rfl, rfl⟩, fun hn => absurd ht hn⟩
  · rw [if_neg ht]
    exact ⟨rfl, rfl, fun hn => absurd hn ht, h.plain⟩

/-- Nothing is asked of the values. -/
theorem invariant_sized :
    Column.Invariant (ι := ι) False (fun _ c rows => c.Sized rows.length) anyWrite where
  ok hE := hE.elim
  append h _ _ := by
    rw [List.length_append]
    exact (sameRows_addPosting _ _).sized (h.appendValue _)
  copy h _ := by
    rw [List.length_append, appendCopy_eq]
    exact (sameRows_addPosting _ _).sized (h.push _)
  adjust {a c c' rows i b v} h _ he := by
    have := (sameRows_adjust c i b).sized h
    rw [he] at this
    rwa [List.length_set]
  setRow {a c c' rows i w v} h _ _ _ he _ := by
    have := h.setRow i v
    rw [he] at this
    rwa [List.length_set]
  permute {a c c' rows live} h _ _ he := by
    have := h.permute live
    rw [he] at this
    rwa [kept, List.length_map]
  clearRows h := h.clearRows

theorem sized_new (spec : AttrSpec) : (new spec : Column ι).Sized 0 := (ok_new spec).sized

end Column

/-- What the operations of the store must keep, whether they throw or not, for `P` to be a fact
about column `a` of a store of `n` rows.  `A` is asked of the values that are written. -/
structure Column.Rowwise {ι : Type} [ColumnIndex ι] (P : ℕ → Column ι → ℕ → Prop)
    (A : ℕ → AttrValue → Prop) : Prop where
  sized : ∀ {a c n}, P a c n → c.Sized n
  append : ∀ {a c n v}, P a c n → (v.isNull = true ∨ v.type = c.type) → A a v →
    P a ((c.appendValue v).addPosting n) (n + 1)
  copy : ∀ {a c n} src, P a c n → P a ((c.appendCopy src).addPosting n) (n + 1)
  adjust : ∀ {a c n} i b, P a c n → P a (c.adjust i b).state n

/-- No condition on the values. -/
def anyValue : ℕ → AttrValue → Prop := fun _ _ => True

/-- Nothing but the sizes of the arrays. -/
def Column.HasSize {ι : Type} (_ : ℕ) (c : Column ι) (n : ℕ) : Prop := c.Sized n

theorem Column.rowwise_hasSize {ι : Type} [ColumnIndex ι] :
    Column.Rowwise (ι := ι) Column.HasSize anyValue where
  sized h := h
  append h _ _ := (sameRows_addPosting _ _).sized (h.appendValue _)
  copy {a c n} src h := by
    unfold Column.HasSize
    rw [appendCopy_eq]
    exact (sameRows_addPosting _ _).sized (h.push _)
  adjust {a c n} i b h := (sameRows_adjust c i b).sized h

/-! ### The shape of a store -/

namespace MetadataStore

variable {ι : Type} {P P' : ℕ → Column ι → ℕ → Prop} {A : ℕ → AttrValue → Prop}
  {schema : List AttrSpec} {s s' : MetadataStore ι} {n : ℕ} {rec : Record}

/-- A store of this schema has `n` rows, every column by `P`. -/
def ShapedBy (P : ℕ → Column ι → ℕ → Prop) (schema : List AttrSpec) (n : ℕ)
    (s : MetadataStore ι) : Prop :=
  ∃ rows : List Row, rows.length = n ∧ s.Holds (fun a c rows => P a c rows.length) schema rows

/-- A store of this schema has `n` rows in every array. -/
def Shaped (schema : List AttrSpec) (n : ℕ) (s : MetadataStore ι) : Prop :=
  ∃ rows : List Row, rows.length = n ∧ s.Holds (fun _ c rows => c.Sized rows.length) schema rows

theorem ShapedBy.column (h : s.ShapedBy P schema n) {a : ℕ} {c : Column ι}
    (hc : s.columns[a]? = some c) : P a c n := by
  obtain ⟨rows, rfl, hs⟩ := h
  have := hs.column a c hc
  rwa [List.length_map] at this

/-- Nothing but the number of the rows is known: they may be live or not, as `status` says. -/
theorem ShapedBy.step (h : s.ShapedBy P schema n) {m : ℕ} (hschema : s'.schema = s.schema)
    (hfp : s'.fingerprint = s.fingerprint) (hlen : s'.columns.length = s.columns.length)
    (hcol : ∀ (a : ℕ) (c' : Column ι), s'.columns[a]? = some c' →
      ∃ c, s.columns[a]? = some c ∧ c'.type = c.type ∧ P' a c' m)
    (hpay : s'.payload.length = m) (hrows : s'.rows = m) (status : ℕ → RowStatus) :
    ∃ rows : List Row, rows.length = m ∧
      s'.Holds (fun a c rows => P' a c rows.length) schema rows ∧
      ∀ i r, rows[i]? = some r → r.status = status i := by
  obtain ⟨rows, -, hs⟩ := h
  refine ⟨s'.payload.mapIdx fun i p => ⟨status i, List.replicate schema.length attrNull, p⟩,
    by rw [List.length_mapIdx, hpay], hs.step hschema hfp hlen (fun a c' hc' => ?_) ?_
      (by rw [List.length_mapIdx, hpay, hrows]) fun r hr => ?_, fun i r hr => ?_⟩
  · obtain ⟨c, hc, htype, hP⟩ := hcol a c' hc'
    refine ⟨c, hc, htype, ?_⟩
    rwa [List.length_map, List.length_mapIdx, hpay]
  · refine List.ext_getElem? fun i => ?_
    rw [List.getElem?_map, List.getElem?_mapIdx, Option.map_map]
    exact (Option.map_id' ..).symm
  · obtain ⟨i, hi⟩ := List.getElem?_of_mem hr
    rw [List.getElem?_mapIdx] at hi
    obtain ⟨p, -, rfl⟩ := Option.map_eq_some_iff.1 hi
    exact List.length_replicate
  · rw [List.getElem?_mapIdx] at hr
    obtain ⟨p, -, rfl⟩ := Option.map_eq_some_iff.1 hr
    rfl

theorem ShapedBy.counts (h : s.ShapedBy P schema n) : s.payload.length = n ∧ s.rows = n := by
  obtain ⟨rows, rfl, hs⟩ := h
  exact ⟨by rw [hs.payload, List.length_map], hs.rowCount⟩

/-- What a step must do to every array. -/
theorem ShapedBy.of (h : s.ShapedBy P schema n) {m : ℕ} (hschema : s'.schema = s.schema)
    (hfp : s'.fingerprint = s.fingerprint) (hlen : s'.columns.length = s.columns.length)
    (hcol : ∀ (a : ℕ) (c' : Column ι), s'.columns[a]? = some c' →
      ∃ c, s.columns[a]? = some c ∧ c'.type = c.type ∧ P' a c' m)
    (hpay : s'.payload.length = m) (hrows : s'.rows = m) : s'.ShapedBy P' schema m := by
  obtain ⟨rows, hlen', hs, -⟩ := h.step hschema hfp hlen hcol hpay hrows fun _ => .dead
  exact ⟨rows, hlen', hs⟩

theorem ShapedBy.mono (h : s.ShapedBy P schema n) (hP : ∀ a c, P a c n → P' a c n) :
    s.ShapedBy P' schema n :=
  h.of rfl rfl rfl (fun a c hc => ⟨c, hc, rfl, hP a c (h.column hc)⟩) h.counts.1 h.counts.2

/-- A loop whose rounds keep what is known of the columns, whether it throws or not. -/
theorem ShapedBy.loop (h : s.ShapedBy P schema n) {f : ℕ → Column ι → Outcome (Column ι) Unit}
    (hf : ∀ a c, s.columns[a]? = some c → P a (f a c).state n)
    (htype : ∀ a c, (f a c).state.type = c.type) :
    (s.withColumns (forColumns f 0 s.columns).state).ShapedBy P schema n := by
  obtain ⟨hlen, hall⟩ := forColumns_state f 0 s.columns
  refine h.of rfl rfl hlen (fun a c' hc' => ?_) h.counts.1 h.counts.2
  obtain ⟨c, hc, hround⟩ := hall a c' hc'
  rcases hround with rfl | rfl
  · exact ⟨c', hc, rfl, h.column hc⟩
  · rw [Nat.zero_add]
    exact ⟨c, hc, htype a c, hf a c hc⟩

variable [ColumnIndex ι]

/-- The loop of `mark_live` and of `mark_dead`. -/
theorem ShapedBy.adjust (hP : Column.Rowwise P A) (h : s.ShapedBy P schema n) (i : InternalId)
    (b : Bool) : ((forColumns (fun _ c => c.adjust i b) 0 s.columns).mapState
      s.withColumns).state.ShapedBy P schema n := by
  rw [Outcome.state_mapState]
  exact h.loop (fun a c hc => hP.adjust i b (h.column hc)) fun _ c => Column.type_adjust c i b

theorem ShapedBy.setRow (h : s.ShapedBy P schema n) (i : InternalId)
    (hset : ∀ a c, s.columns[a]? = some c → P a (c.setRow i (rec.attr a)).state n) :
    (s.setRow i rec).state.ShapedBy P schema n := by
  unfold MetadataStore.setRow
  cases validate s.schema rec with
  | error e => exact h
  | ok _ =>
    have hloop := h.loop hset fun a c => Column.type_setRow c i (rec.attr a)
    cases hcs : forColumns (fun a (c : Column ι) => c.setRow i (rec.attr a)) 0 s.columns with
    | error e cs => rwa [hcs] at hloop
    | ok _ cs =>
      rw [hcs] at hloop
      exact hloop.of rfl rfl rfl (fun a c hc => ⟨c, hc, rfl, hloop.column hc⟩)
        (List.length_set.trans hloop.counts.1) hloop.counts.2

omit [ColumnIndex ι] in
theorem ShapedBy.typed (h : s.ShapedBy P schema n) (hv : validate s.schema rec = .ok ()) {a : ℕ}
    {c : Column ι} (hc : s.columns[a]? = some c) :
    (rec.attr a).isNull = true ∨ (rec.attr a).type = c.type := by
  obtain ⟨rows, -, hs⟩ := h
  exact hs.typed (hs.declared ▸ hv) hc

theorem ShapedBy.appendRow (hP : Column.Rowwise P A) (h : s.ShapedBy P schema n)
    (hv : validate s.schema rec = .ok ()) (hA : ∀ a, A a (rec.attr a)) :
    ∃ s', s.appendRow rec = .ok () s' ∧ s'.ShapedBy P schema (n + 1) := by
  unfold MetadataStore.appendRow
  rw [hv]
  refine ⟨_, rfl, h.of rfl rfl (by simp) (fun a c' hc' => ?_)
    (by rw [List.length_append, h.counts.1]; rfl) (congrArg (· + 1) h.counts.2)⟩
  obtain ⟨c₁, hc₁, rfl⟩ := Option.map_eq_some_iff.1 ((List.getElem?_map ..).symm.trans hc')
  obtain ⟨c, hc, rfl⟩ := Option.map_eq_some_iff.1 ((List.getElem?_mapIdx ..).symm.trans hc₁)
  refine ⟨c, hc, by rw [Column.type_addPosting, Column.type_appendValue], ?_⟩
  rw [h.counts.2]
  exact hP.append (h.column hc) (h.typed hv hc) (hA a)

theorem ShapedBy.appendRowCopy (hP : Column.Rowwise P A) (h : s.ShapedBy P schema n)
    (src : InternalId) : (s.appendRowCopy src).ShapedBy P schema (n + 1) := by
  unfold MetadataStore.appendRowCopy
  refine h.of rfl rfl (by simp) (fun a c' hc' => ?_)
    (by rw [List.length_append, h.counts.1]; rfl) (congrArg (· + 1) h.counts.2)
  obtain ⟨c₁, hc₁, rfl⟩ := Option.map_eq_some_iff.1 ((List.getElem?_map ..).symm.trans hc')
  obtain ⟨c, hc, rfl⟩ := Option.map_eq_some_iff.1 ((List.getElem?_map ..).symm.trans hc₁)
  refine ⟨c, hc, by rw [Column.type_addPosting, Column.appendCopy_eq, Column.type_push], ?_⟩
  rw [h.counts.2]
  exact hP.copy src (h.column hc)

theorem ShapedBy.permute (h : s.ShapedBy P schema n) {live : List InternalId}
    (hlive : ∀ a c c', s.columns[a]? = some c → c.permute live = .ok () c' → P' a c' live.length)
    (he : s.permute live = .ok () s') : s'.ShapedBy P' schema live.length := by
  unfold MetadataStore.permute at he
  cases hcs : forColumns (fun _ (c : Column ι) => c.permute live) 0 s.columns with
  | error e cs =>
    rw [hcs] at he
    cases he
  | ok _ cs =>
    rw [hcs] at he
    cases he
    obtain ⟨hlen, hall⟩ := forColumns_ok hcs
    refine h.of rfl rfl hlen (fun a c' hc' => ?_) (List.length_map _) rfl
    obtain ⟨c, hc, hf⟩ := hall a c' hc'
    have htype := Column.type_permute c live
    rw [hf] at htype
    exact ⟨c, hc, htype, hlive a c c' hc hf⟩

end MetadataStore

end Metadata

end Vdb
