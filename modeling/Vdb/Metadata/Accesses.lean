import Vdb.Metadata.Lists

/-!
# The accesses of a store

The operations of the store index the vectors of a column without a check: by row, and the counts
and the postings by the code of a value, cut to 32 bits.  An `Access` is one such index, with the
column as it is then; `accesses` lists those of an operation, up to the exception that ends it.

* `MetadataStore.accesses_run` : as long as every Bool is `0` or `1` in its low 32 bits, all of them
  are in range, in every run on rows that are there, whatever the trees throw.
* `MetadataStore.flag_out_of_range` : a Bool that `validate` lets through is counted out of range.
-/

namespace Vdb

namespace Metadata

namespace Column

/-- The vectors of a column. -/
inductive Field where
  | data
  | present
  | dict
  | count
  | postings
  | textTerms
  | docLen
  | rawText
  deriving DecidableEq

variable {ι : Type}

/-- `size()` of a vector. -/
def size (c : Column ι) : Field → ℕ
  | .data => c.data.length
  | .present => c.present.length
  | .dict => c.dict.length
  | .count => c.count.length
  | .postings => c.postings.length
  | .textTerms => c.textTerms.length
  | .docLen => c.docLen.length
  | .rawText => c.rawText.length

/-- An index into a vector of the column. -/
abbrev Access (ι : Type) := Column ι × Field × ℕ

def Access.InRange (e : Access ι) : Prop := e.2.2 < e.1.size e.2.1

instance : DecidablePred (Access.InRange (ι := ι)) := fun e =>
  inferInstanceAs (Decidable (e.2.2 < e.1.size e.2.1))

/-- The type has counts and postings. -/
def IsCoded (c : Column ι) : Prop := c.type = .tag ∨ c.type = .bool ∨ c.type = .text

instance (c : Column ι) : Decidable c.IsCoded :=
  inferInstanceAs (Decidable (c.type = .tag ∨ c.type = .bool ∨ c.type = .text))

variable (c : Column ι) (id : InternalId)

/-- Where the codes of a row that has a value are read, and what they lead to. -/
def codeAccesses (entry : Field) : List (Access ι) :=
  match c.type with
  | .text => (c, .textTerms, id) :: (c.codesAt id).map fun code => (c, entry, code)
  | .tag | .bool => (c, .data, id) :: (c.codesAt id).map fun code => (c, entry, code)
  | _ => []

/-- `adjust_count_`. -/
def countAccesses : List (Access ι) :=
  (c, .present, id) ::
    if ¬ c.isPresent id then []
    else c.codeAccesses id .count ++ if c.type = .text then [(c, .docLen, id)] else []

/-- `add_posting_`. -/
def postAccesses : List (Access ι) :=
  (c, .present, id) :: if ¬ c.isPresent id then [] else c.codeAccesses id .postings

/-- `adjust_index_`. -/
def indexAccesses : List (Access ι) :=
  if c.index.isNone then []
  else (c, .present, id) :: if ¬ c.isPresent id then [] else [(c, .data, id)]

/-- The arrays that have an entry for every row. -/
def rowAccesses : List (Access ι) :=
  [(c, .data, id), (c, .present, id)] ++
    if c.type = .text then [(c, .textTerms, id), (c, .docLen, id), (c, .rawText, id)] else []

/-- `get`. -/
def getAccesses : List (Access ι) :=
  (c, .present, id) ::
    if ¬ c.isPresent id then []
    else if c.type = .tag then [(c, .data, id), (c, .dict, (c.data.getD id 0).toNat)]
    else if c.type = .text then [(c, .rawText, id)]
    else [(c, .data, id)]

variable [ColumnIndex ι]

def adjustAccesses (increment : Bool) : List (Access ι) :=
  c.countAccesses id ++ (c.adjustCount id increment).indexAccesses id

/-- What follows a call on the column, unless that throws. -/
def after (o : Outcome (Column ι) Unit) (next : Column ι → List (Access ι)) : List (Access ι) :=
  match o with
  | .ok _ c => next c
  | .error _ _ => []

/-- One round of the loop of `rebuild_derived_state` for a live row. -/
def rebuildAccesses : List (Access ι) :=
  c.adjustAccesses id true ++ after (c.adjust id true) fun c => c.postAccesses id

/-- One round of the loop of `set_row`. -/
def setRowAccesses (v : AttrValue) : List (Access ι) :=
  c.adjustAccesses id false ++ after (c.adjust id false) fun c =>
    c.rowAccesses id ++ (c.setValue id v).rebuildAccesses id

/-- One round of the loop of `permute`. -/
def permuteAccesses (live : List InternalId) : List (Access ι) :=
  let kept := (c.keepRows live).clearPostings
  live.flatMap c.rowAccesses ++
    ((if c.IsCoded then (List.range live.length).flatMap kept.postAccesses else []) ++
      (List.range live.length).flatMap kept.indexAccesses)

end Column

open Column (Access)

/-- The rounds that a loop over the columns comes to. -/
def loopAccesses {ι : Type} (accesses : ℕ → Column ι → List (Access ι))
    (f : ℕ → Column ι → Outcome (Column ι) Unit) : ℕ → List (Column ι) → List (Access ι)
  | _, [] => []
  | a, c :: cs => accesses a c ++
    match f a c with
    | .ok _ _ => loopAccesses accesses f (a + 1) cs
    | .error _ _ => []

/-- The operations of a store that a database runs. -/
inductive Command where
  | appendRow (rec : Record)
  | appendRowCopy (src : InternalId)
  | setRow (id : InternalId) (rec : Record)
  | markLive (id : InternalId)
  | markDead (id : InternalId)
  | permute (live : List InternalId)
  | rebuildDerivedState (deleted : List Bool)
  /-- `serialize`, `deserialize` into a fresh store, and `rebuild_derived_state`. -/
  | reload (deleted : List Bool)

namespace MetadataStore

variable {ι : Type} [ColumnIndex ι] (s : MetadataStore ι)

/-- `deserialize` of a fresh store from the bytes of this one. -/
def loaded : Except Exn (MetadataStore ι) :=
  match (new s.schema : Except Exn (MetadataStore ι)) with
  | .error e => .error e
  | .ok t => (t.deserialize s.serialize).map Prod.fst

def command : Command → Outcome (MetadataStore ι) Unit
  | .appendRow rec => s.appendRow rec
  | .appendRowCopy src => .ok () (s.appendRowCopy src)
  | .setRow id rec => s.setRow id rec
  | .markLive id => s.markLive id
  | .markDead id => s.markDead id
  | .permute live => s.permute live
  | .rebuildDerivedState deleted => s.rebuildDerivedState deleted
  | .reload deleted =>
    match s.loaded with
    | .error e => .error e s
    | .ok s => s.rebuildDerivedState deleted

/-- The second loop of `rebuild_derived_state`. -/
def rebuildRowsAccesses (deleted : List Bool) :
    List InternalId → List (Column ι) → List (Access ι)
  | [], _ => []
  | id :: ids, cs =>
    if deleted.getD id false then rebuildRowsAccesses deleted ids cs
    else loopAccesses (fun _ c => c.rebuildAccesses id) (fun _ c => c.rebuildRow id) 0 cs ++
      match forColumns (fun _ c => c.rebuildRow id) 0 cs with
      | .ok _ cs => rebuildRowsAccesses deleted ids cs
      | .error _ _ => []

def rebuildDerivedStateAccesses (deleted : List Bool) : List (Access ι) :=
  rebuildRowsAccesses deleted (List.range s.rows) (s.columns.map Column.clearDerived)

/-- The accesses of an operation. -/
def accesses : Command → List (Access ι)
  | .appendRow rec =>
    match validate s.schema rec with
    | .error _ => []
    | .ok _ => (s.columns.mapIdx fun a c => c.appendValue (rec.attr a)).flatMap fun c =>
        c.postAccesses s.rows
  | .appendRowCopy src =>
    s.columns.flatMap (fun c => c.rowAccesses src) ++
      (s.columns.map fun c => c.appendCopy src).flatMap fun c => c.postAccesses s.rows
  | .setRow id rec =>
    match validate s.schema rec with
    | .error _ => []
    | .ok _ => loopAccesses (fun a c => c.setRowAccesses id (rec.attr a))
        (fun a c => c.setRow id (rec.attr a)) 0 s.columns
  | .markLive id =>
    loopAccesses (fun _ c => c.adjustAccesses id true) (fun _ c => c.adjust id true) 0 s.columns
  | .markDead id =>
    loopAccesses (fun _ c => c.adjustAccesses id false) (fun _ c => c.adjust id false) 0 s.columns
  | .permute live =>
    loopAccesses (fun _ c => c.permuteAccesses live) (fun _ c => c.permute live) 0 s.columns
  | .rebuildDerivedState deleted => s.rebuildDerivedStateAccesses deleted
  | .reload deleted =>
    match s.loaded with
    | .error _ => []
    | .ok s => s.rebuildDerivedStateAccesses deleted

/-- `get_row`. -/
def getRowAccesses (id : InternalId) : List (Access ι) :=
  s.columns.flatMap fun c => c.getAccesses id

end MetadataStore

/-! ### What the codes of a column lead to -/

namespace Column

variable {ι : Type} {c c' : Column ι} {x : Cell} {v : AttrValue} {i n : ℕ} {str : Bytes}

/-- The codes of the cell are in the dictionary, or those of the two Bools. -/
structure Leads (c : Column ι) (x : Cell) : Prop where
  text : c.type = .text → ∀ k ∈ x.terms, k < c.dict.length
  tag : c.type = .tag → x.present = true → x.data.toNat < c.dict.length
  bool : c.type = .bool → x.present = true → x.data.toNat % 2 ^ 32 < 2

/-- Every code in the column has a string, or is that of a Bool. -/
structure Led (c : Column ι) : Prop where
  codes : ∀ s k, c.codes s = some k → k < c.dict.length ∧ k < 2 ^ 32
  strings : ¬ (c.type = .tag ∨ c.type = .text) → c.dict = []
  leads : ∀ i, c.Leads (c.cellAt i)

/-- Every code in the column has its entries. -/
structure Coded (c : Column ι) : Prop extends Led c where
  count : c.count.length = c.width
  postings : c.postings.length = c.width

/-- A Bool is `0` or `1` in the 32 bits that are its code. -/
def Narrow (_ : ℕ) (v : AttrValue) : Prop := v.type = .bool → v.raw.toNat % 2 ^ 32 < 2

theorem leads_absent (c : Column ι) : c.Leads {} := ⟨fun _ => nofun, fun _ => nofun, fun _ => nofun⟩

theorem Leads.mono (h : c.Leads x) (htype : c'.type = c.type)
    (hdict : c.dict.length ≤ c'.dict.length) : c'.Leads x where
  text ht k hk := (h.text (htype ▸ ht) k hk).trans_le hdict
  tag ht hp := (h.tag (htype ▸ ht) hp).trans_le hdict
  bool ht hp := h.bool (htype ▸ ht) hp

/-- A row that has a value is counted and posted in range. -/
theorem Coded.lt_width (h : c.Coded) (hp : c.isPresent i = true) {k : ℕ} (hk : k ∈ c.codesAt i) :
    k < c.width := by
  have hleads := h.leads i
  unfold codesAt at hk
  unfold width
  cases ht : c.type with
  | text =>
    rw [ht] at hk
    exact hleads.text ht k hk
  | tag =>
    rw [ht] at hk
    rw [List.mem_singleton.1 hk]
    exact (Nat.mod_le _ _).trans_lt (hleads.tag ht hp)
  | bool =>
    rw [ht] at hk
    rw [List.mem_singleton.1 hk]
    exact hleads.bool ht hp
  | _ =>
    rw [ht] at hk
    cases hk

theorem Led.of_sameData (h : c.Led) (hs : c.SameData c') : c'.Led where
  codes := by
    rw [hs.codes, hs.dict]
    exact h.codes
  strings := by
    rw [hs.type, hs.dict]
    exact h.strings
  leads i := by
    rw [cellAt_sameRows hs.toSameRows]
    exact (h.leads i).mono hs.type (congrArg List.length hs.dict).ge

theorem Coded.of_sameData (h : c.Coded) (hs : c.SameData c')
    (hcount : c'.count.length = c.count.length) (hpost : c'.postings.length = c.postings.length) :
    c'.Coded where
  toLed := h.toLed.of_sameData hs
  count := by
    rw [width, hs.type, hs.dict]
    exact hcount.trans h.count
  postings := by
    rw [width, hs.type, hs.dict]
    exact hpost.trans h.postings

/-! ### Interning -/

theorem Led.intern (h : c.Led) (ht : c.type = .tag ∨ c.type = .text) (str : Bytes) :
    (c.intern str).1.Led ∧ (c.intern str).2 < (c.intern str).1.dict.length ∧
      (c.intern str).2 < 2 ^ 32 := by
  unfold Column.intern
  cases hs : c.codes str with
  | some code => exact ⟨h, h.codes str code hs⟩
  | none =>
    have hcode : c.dict.length % 2 ^ 32 < (c.dict ++ [str]).length := by
      rw [List.length_append]
      exact Nat.lt_succ_of_le (Nat.mod_le _ _)
    have hbits : c.dict.length % 2 ^ 32 < 2 ^ 32 := Nat.mod_lt _ (by decide)
    have hgrown : c.dict.length ≤ (c.dict ++ [str]).length := by
      rw [List.length_append]
      exact Nat.le_add_right _ _
    refine ⟨⟨fun t k hk => ?_, fun hn => absurd ht hn, fun i => (h.leads i).mono rfl hgrown⟩, hcode,
      hbits⟩
    dsimp only at hk ⊢
    by_cases hts : t = str
    · subst hts
      rw [Function.update_self] at hk
      cases hk
      exact ⟨hcode, hbits⟩
    · rw [Function.update_of_ne hts] at hk
      exact ⟨(h.codes t k hk).1.trans_le hgrown, (h.codes t k hk).2⟩

theorem Coded.intern (h : c.Coded) (ht : c.type = .tag ∨ c.type = .text) (str : Bytes) :
    (c.intern str).1.Coded := by
  have hled := (h.toLed.intern ht str).1
  have hbool : c.type ≠ .bool := by rcases ht with ht | ht <;> simp [ht]
  unfold Column.intern at hled ⊢
  cases hs : c.codes str with
  | some code => exact h
  | none =>
    rw [hs] at hled
    refine ⟨hled, ?_, ?_⟩
    · simp [width, hbool, h.count]
    · simp [width, hbool, h.postings]

/-- What interning a string keeps, interning a text keeps. -/
theorem internTerms_keeps {K : Column ι → Prop} (hled : ∀ c, K c → c.Led)
    (hK : ∀ c str, K c → c.type = .text → K (c.intern str).1) (h : K c) (ht : c.type = .text)
    (text : Bytes) : K (c.internTerms text).1 ∧
      ∀ k ∈ (c.internTerms text).2.1, k < (c.internTerms text).1.dict.length := by
  have hfold : ∀ (toks : List Bytes) (p : Column ι × List ℕ), K p.1 → p.1.type = .text →
      (∀ k ∈ p.2, k < p.1.dict.length) → K (toks.foldl internToken p).1 ∧
        ∀ k ∈ (toks.foldl internToken p).2, k < (toks.foldl internToken p).1.dict.length := by
    intro toks
    induction toks with
    | nil => exact fun p hp _ hseen => ⟨hp, hseen⟩
    | cons tok toks ih =>
      intro p hp htype hseen
      have hlt := ((hled p.1 hp).intern (.inr htype) tok).2.1
      refine ih (internToken p tok) (hK p.1 tok hp htype) ((type_intern p.1 tok).trans htype)
        fun k hk => ?_
      have hold : ∀ k ∈ p.2, k < (p.1.intern tok).1.dict.length := fun k hk =>
        (hseen k hk).trans_le (length_dict_intern p.1 tok)
      have hk' : k ∈ if (p.1.intern tok).2 ∈ p.2 then p.2 else p.2 ++ [(p.1.intern tok).2] := hk
      split_ifs at hk'
      · exact hold k hk'
      · rcases List.mem_append.1 hk' with hk' | hk'
        · exact hold k hk'
        · exact List.mem_singleton.1 hk' ▸ hlt
  exact hfold (tokenizeText text) (c, []) h ht (by simp)

theorem Coded.internTerms (h : c.Coded) (ht : c.type = .text) (text : Bytes) :
    (c.internTerms text).1.Coded ∧
      ∀ k ∈ (c.internTerms text).2.1, k < (c.internTerms text).1.dict.length :=
  internTerms_keeps (fun _ => Coded.toLed) (fun _ str h ht => h.intern (.inr ht) str) h ht text

/-- The cell of a value, over the column with its strings. -/
theorem Coded.cellOf (h : c.Coded) (hv : v.isNull = true ∨ v.type = c.type) {a : ℕ}
    (hnarrow : Narrow a v) : (c.cellOf v).1.Coded ∧ (c.cellOf v).1.Leads (c.cellOf v).2 ∧
      ((c.cellOf v).1.type ≠ .text → (c.cellOf v).2.Plain) := by
  unfold Column.cellOf
  by_cases hnull : v.isNull = true
  · rw [if_pos hnull]
    exact ⟨h, leads_absent c, fun _ => ⟨rfl, rfl, rfl⟩⟩
  have htype : v.type = c.type := hv.resolve_left hnull
  rw [if_neg hnull]
  by_cases htext : c.type = .text
  · rw [if_pos htext]
    obtain ⟨hcoded, hterms⟩ := h.internTerms htext v.text
    have htype' : (c.internTerms v.text).1.type = .text := (type_internTerms c _).trans htext
    refine ⟨hcoded, ⟨fun _ => hterms, fun ht => ?_, fun ht => ?_⟩, fun hn => absurd htype' hn⟩
    · rw [htype'] at ht
      cases ht
    · rw [htype'] at ht
      cases ht
  · rw [if_neg htext]
    by_cases htag : v.type = .tag
    · rw [if_pos htag]
      have hctag : c.type = .tag := htype ▸ htag
      have hcoded := h.intern (.inl hctag) v.text
      obtain ⟨-, hlt, hbits⟩ := h.toLed.intern (.inl hctag) v.text
      have htype' : (c.intern v.text).1.type = .tag := (type_intern c _).trans hctag
      refine ⟨hcoded, ⟨fun _ => nofun, fun _ _ => ?_, fun ht => ?_⟩, fun _ => ⟨rfl, rfl, rfl⟩⟩
      · rwa [UInt64.toNat_ofNat', Nat.mod_eq_of_lt (hbits.trans (by decide))]
      · rw [htype'] at ht
        cases ht
    · rw [if_neg htag]
      exact ⟨h, ⟨fun _ => nofun, fun ht => absurd (htype.trans ht) htag,
        fun ht _ => hnarrow (htype.trans ht)⟩, fun _ => ⟨rfl, rfl, rfl⟩⟩

/-! ### Edits -/

/-- Other rows in the same arrays. -/
theorem Coded.recell (h : c.Coded)
    (hrest : c' = { c with data := c'.data, present := c'.present, textTerms := c'.textTerms,
                           docLen := c'.docLen, rawText := c'.rawText })
    (hleads : ∀ i, c.Leads (c'.cellAt i)) : c'.Coded := by
  refine ⟨⟨?_, ?_, fun i => ?_⟩, ?_, ?_⟩
  · rw [hrest]
    exact h.codes
  · rw [hrest]
    exact h.strings
  · exact (hleads i).mono (by rw [hrest]) (by rw [hrest])
  · rw [hrest]
    exact h.count
  · rw [hrest]
    exact h.postings

theorem Coded.push (h : c.Coded) (hs : c.Sized n) (hx : c.Leads x)
    (hplain : c.type ≠ .text → x.Plain) : (c.push x).Coded := by
  refine h.recell ?_ fun i => ?_
  · unfold Column.push
    dsimp only
    split_ifs <;> rfl
  · rcases Nat.lt_or_ge n i with hi | hi
    · rw [(hs.push x).cellAt_of_le hi]
      exact leads_absent c
    · rw [hs.cellAt_push hplain hi]
      split_ifs
      · exact hx
      · exact h.leads i

theorem Coded.put (h : c.Coded) (hs : c.Sized n) (hi : i < n) (hx : c.Leads x)
    (hplain : c.type ≠ .text → x.Plain) : (c.put i x).Coded := by
  refine h.recell ?_ fun j => ?_
  · unfold Column.put
    dsimp only
    split_ifs <;> rfl
  · rw [hs.cellAt_put hplain hi]
    split_ifs
    · exact hx
    · exact h.leads j

/-- The data of a Text are not used. -/
theorem Coded.of_text (h : c.Coded) (ht : c.type = .text) (data : List UInt64) :
    { c with data }.Coded := by
  refine h.recell rfl fun i => ?_
  exact
  { text := (h.leads i).text
    tag := fun hn => by
      rw [show c.type = .tag from hn] at ht
      cases ht
    bool := fun hn => by
      rw [show c.type = .bool from hn] at ht
      cases ht }

theorem setValue_put (c : Column ι) (i : InternalId) (v : AttrValue) :
    c.setValue i v = { (c.cellOf v).1.put i (c.cellOf v).2 with data := (c.setValue i v).data } ∧
      (c.type ≠ .text → c.setValue i v = (c.cellOf v).1.put i (c.cellOf v).2) := by
  unfold Column.setValue Column.cellOf Column.put
  by_cases hnull : v.isNull
  · simp only [hnull, if_true]
    simp
  · by_cases htext : c.type = .text
    · simp only [hnull, htext, if_true, type_internTerms, Bool.false_eq_true, if_false]
      simp
    · by_cases htag : v.type = .tag
      · simp only [hnull, htext, htag, if_true, type_intern, Bool.false_eq_true, if_false]
        simp
      · simp only [hnull, htext, htag, Bool.false_eq_true, if_false]
        simp

theorem Coded.setValue (h : c.Coded) (hs : c.Sized n) (hi : i < n)
    (hv : v.isNull = true ∨ v.type = c.type) {a : ℕ} (hnarrow : Narrow a v) :
    (c.setValue i v).Coded := by
  obtain ⟨hcoded, hleads, hplain⟩ := h.cellOf hv hnarrow
  have hput := hcoded.put ((sameRows_cellOf c v).sized hs) hi hleads hplain
  obtain ⟨htext, hrest⟩ := setValue_put c i v
  by_cases ht : c.type = .text
  · rw [htext]
    refine hput.of_text ?_ _
    exact (type_put _ i _).trans ((sameRows_cellOf c v).type.trans ht)
  · rwa [hrest ht]

theorem Coded.addPosting (h : c.Coded) (i : InternalId) : (c.addPosting i).Coded := by
  refine h.of_sameData (sameData_addPosting c i) ?_ ?_
  · unfold Column.addPosting
    split_ifs <;> rfl
  · unfold Column.addPosting
    split_ifs
    · exact Tally.length_foldl_modify _ _ _
    · rfl

theorem Coded.keepRows (h : c.Coded) (hs : c.Sized n) (live : List InternalId) :
    (c.keepRows live).Coded := by
  refine h.recell ?_ fun i => ?_
  · unfold Column.keepRows
    dsimp only
    split_ifs <;> rfl
  · cases hi : live[i]? with
    | none =>
      rw [(hs.keepRows live).cellAt_of_le (List.getElem?_eq_none_iff.1 hi)]
      exact leads_absent c
    | some src =>
      rw [cellAt_keepRows hs hi]
      exact h.leads src

theorem Coded.clearPostings (h : c.Coded) : c.clearPostings.Coded := by
  obtain ⟨hsame, hpost, hcount⟩ := sameData_clearPostings c
  exact h.of_sameData hsame (congrArg List.length hcount) hpost

/-! ### In range -/

/-- A column of `n` rows whose codes all have their entries. -/
def Fine (_ : ℕ) (c : Column ι) (n : ℕ) : Prop := c.Sized n ∧ c.Coded

theorem inRange_rowAccesses (hs : c.Sized n) (hi : i < n) : ∀ e ∈ c.rowAccesses i, e.InRange := by
  intro e he
  rcases List.mem_append.1 he with he | he
  · simp only [List.mem_cons, List.not_mem_nil, or_false] at he
    rcases he with rfl | rfl
    · exact hi.trans_eq hs.data.symm
    · exact hi.trans_eq hs.present.symm
  · split_ifs at he with ht
    · obtain ⟨h1, h2, h3⟩ := hs.text ht
      simp only [List.mem_cons, List.not_mem_nil, or_false] at he
      rcases he with rfl | rfl | rfl
      · exact hi.trans_eq h1.symm
      · exact hi.trans_eq h2.symm
      · exact hi.trans_eq h3.symm
    · cases he

theorem inRange_codeAccesses {a : ℕ} (h : c.Fine a n) (hi : i < n) (hp : c.isPresent i = true)
    (entry : Field) (hentry : c.size entry = c.width) :
    ∀ e ∈ c.codeAccesses i entry, e.InRange := by
  obtain ⟨hs, h⟩ := h
  have hcodes : ∀ e ∈ (c.codesAt i).map fun code => (c, entry, code), Access.InRange e := by
    intro e he
    obtain ⟨k, hk, rfl⟩ := List.mem_map.1 he
    exact (h.lt_width hp hk).trans_eq hentry.symm
  have hdata : Access.InRange (c, Field.data, i) := hi.trans_eq hs.data.symm
  intro e he
  unfold codeAccesses at he
  cases ht : c.type with
  | text =>
    rw [ht] at he
    rcases List.mem_cons.1 he with rfl | he
    · exact hi.trans_eq (hs.text ht).1.symm
    · exact hcodes e he
  | tag =>
    rw [ht] at he
    exact (List.mem_cons.1 he).elim (· ▸ hdata) (hcodes e)
  | bool =>
    rw [ht] at he
    exact (List.mem_cons.1 he).elim (· ▸ hdata) (hcodes e)
  | _ =>
    rw [ht] at he
    cases he

theorem inRange_countAccesses {a : ℕ} (h : c.Fine a n) (hi : i < n) :
    ∀ e ∈ c.countAccesses i, e.InRange := by
  intro e he
  rcases List.mem_cons.1 he with rfl | he
  · exact hi.trans_eq h.1.present.symm
  · split_ifs at he with hp ht
    · rcases List.mem_append.1 he with he | he
      · exact inRange_codeAccesses h hi hp .count h.2.count e he
      · rw [List.mem_singleton.1 he]
        exact hi.trans_eq (h.1.text ht).2.1.symm
    · rw [List.append_nil] at he
      exact inRange_codeAccesses h hi hp .count h.2.count e he
    · cases he

theorem inRange_postAccesses {a : ℕ} (h : c.Fine a n) (hi : i < n) :
    ∀ e ∈ c.postAccesses i, e.InRange := by
  intro e he
  rcases List.mem_cons.1 he with rfl | he
  · exact hi.trans_eq h.1.present.symm
  · split_ifs at he with hp
    · exact inRange_codeAccesses h hi hp .postings h.2.postings e he
    · cases he

theorem inRange_indexAccesses (hs : c.Sized n) (hi : i < n) :
    ∀ e ∈ c.indexAccesses i, e.InRange := by
  intro e he
  unfold indexAccesses at he
  split_ifs at he with hnone hp
  · cases he
  · simp only [List.mem_cons, List.not_mem_nil, or_false] at he
    rcases he with rfl | rfl
    · exact hi.trans_eq hs.present.symm
    · exact hi.trans_eq hs.data.symm
  · rw [List.mem_singleton.1 he]
    exact hi.trans_eq hs.present.symm

theorem inRange_getAccesses {a : ℕ} (h : c.Fine a n) (hi : i < n) :
    ∀ e ∈ c.getAccesses i, e.InRange := by
  have hdata : Access.InRange (c, Field.data, i) := hi.trans_eq h.1.data.symm
  intro e he
  rcases List.mem_cons.1 he with rfl | he
  · exact hi.trans_eq h.1.present.symm
  · split_ifs at he with hp ht ht
    · simp only [List.mem_cons, List.not_mem_nil, or_false] at he
      rcases he with rfl | rfl
      · exact hdata
      · exact (h.2.leads i).tag ht hp
    · rw [List.mem_singleton.1 he]
      exact hi.trans_eq (h.1.text ht).2.2.symm
    · rw [List.mem_singleton.1 he]
      exact hdata
    · cases he

/-- What is done next is done to the column the call returns. -/
theorem inRange_after {o : Outcome (Column ι) Unit} {next : Column ι → List (Access ι)}
    (h : ∀ e ∈ next o.state, e.InRange) : ∀ e ∈ after o next, e.InRange := by
  cases o with
  | ok _ c => exact h
  | error _ _ => exact fun _ he => absurd he List.not_mem_nil

theorem inRange_adjustAccesses {a : ℕ} (h : c.Fine a n) (hi : i < n) (b : Bool) :
    ∀ e ∈ c.adjustAccesses i b, e.InRange := by
  intro e he
  rcases List.mem_append.1 he with he | he
  · exact inRange_countAccesses h hi e he
  · exact inRange_indexAccesses ((sameRows_adjustCount c i b).sized h.1) hi e he

theorem inRange_permuteAccesses {a : ℕ} (h : c.Fine a n) {live : List InternalId}
    (hlive : ∀ i ∈ live, i < n) :
    ∀ e ∈ c.permuteAccesses live, e.InRange := by
  have hkept : (c.keepRows live).clearPostings.Fine a live.length :=
    ⟨(sameData_clearPostings _).1.toSameRows.sized (h.1.keepRows live),
      (h.2.keepRows h.1 live).clearPostings⟩
  intro e he
  rcases List.mem_append.1 he with he | he
  · obtain ⟨i, hi, he⟩ := List.mem_flatMap.1 he
    exact inRange_rowAccesses h.1 (hlive i hi) e he
  rcases List.mem_append.1 he with he | he
  · split_ifs at he
    · obtain ⟨i, hi, he⟩ := List.mem_flatMap.1 he
      exact inRange_postAccesses hkept (List.mem_range.1 hi) e he
    · cases he
  · obtain ⟨i, hi, he⟩ := List.mem_flatMap.1 he
    exact inRange_indexAccesses hkept.1 (List.mem_range.1 hi) e he

theorem Fine.appendValue {a : ℕ} (h : c.Fine a n) (hv : v.isNull = true ∨ v.type = c.type)
    (hnarrow : Narrow a v) : (c.appendValue v).Fine a (n + 1) := by
  obtain ⟨hs, hc⟩ := h
  obtain ⟨hcoded, hleads, hplain⟩ := hc.cellOf hv hnarrow
  have hsized := (sameRows_cellOf c v).sized hs
  rw [appendValue_eq]
  exact ⟨hsized.push _, hcoded.push hsized hleads hplain⟩

theorem Fine.appendCopy {a : ℕ} (h : c.Fine a n) (src : InternalId) :
    (c.appendCopy src).Fine a (n + 1) := by
  obtain ⟨hs, hc⟩ := h
  have hplain : c.type ≠ .text → (c.cellAt src).Plain := fun ht => by
    obtain ⟨h1, h2, h3⟩ := hs.plain ht
    exact ⟨by simp [cellAt, h1], by simp [cellAt, h2], by simp [cellAt, h3]⟩
  rw [appendCopy_eq]
  exact ⟨hs.push _, hc.push hs (hc.leads src) hplain⟩

theorem Fine.addPosting {a : ℕ} (h : c.Fine a n) (i : InternalId) : (c.addPosting i).Fine a n :=
  ⟨(sameRows_addPosting c i).sized h.1, h.2.addPosting i⟩

variable [ColumnIndex ι]

theorem coded_new (spec : AttrSpec) : (new spec : Column ι).Coded where
  count := (ok_new spec).dict.count
  postings := (ok_new spec).dict.postings
  codes := nofun
  strings _ := rfl
  leads i := by
    rw [(sized_new spec).cellAt_of_le (Nat.zero_le i)]
    exact leads_absent _

theorem Coded.adjust (h : c.Coded) (i : InternalId) (b : Bool) : (c.adjust i b).state.Coded :=
  h.of_sameData (sameData_adjust c i b) (postings_adjust c i b).2
    (congrArg List.length (postings_adjust c i b).1)

omit [ColumnIndex ι] in
/-- What is posted after a call, unless that throws. -/
theorem Coded.posted {o : Outcome (Column ι) Unit} (h : o.state.Coded) (i : InternalId) :
    (o.andThen fun _ c => .ok () (c.addPosting i)).state.Coded :=
  Outcome.andThen_state h fun _ _ hc => hc.addPosting i

theorem Coded.setRow (h : c.Coded) (hs : c.Sized n) (hi : i < n)
    (hv : v.isNull = true ∨ v.type = c.type) {a : ℕ} (hnarrow : Narrow a v) :
    (c.setRow i v).state.Coded := by
  rw [setRow_eq]
  have hsized := (sameRows_adjust c i false).sized hs
  have hset := (h.adjust i false).setValue hsized hi ((type_adjust c i false).symm ▸ hv) hnarrow
  exact (hset.adjust i true).posted i

theorem Coded.permute (h : c.Coded) (hs : c.Sized n) (live : List InternalId) :
    (c.permute live).state.Coded := by
  obtain ⟨p, t, hp, he⟩ := exists_permute c live
  have hkeep := h.keepRows hs live
  have hpost : (c.keepRows live).postings = c.postings := by
    unfold Column.keepRows
    dsimp only
    split_ifs <;> rfl
  rw [he]
  exact ⟨⟨hkeep.codes, hkeep.strings, fun i => (hkeep.leads i).mono rfl le_rfl⟩, hkeep.count,
    (hp.trans (congrArg List.length hpost.symm)).trans hkeep.postings⟩

omit [ColumnIndex ι] in
theorem length_clearDerived [ColumnIndex ι] (c : Column ι) :
    c.clearDerived.count.length = c.count.length ∧
      c.clearDerived.postings.length = c.postings.length := by
  refine ⟨?_, (sameData_clearPostings c).2.1⟩
  unfold clearDerived
  dsimp only
  split_ifs
  · exact List.length_map _
  · rfl

theorem Coded.clearDerived (h : c.Coded) : c.clearDerived.Coded :=
  h.of_sameData (sameData_clearDerived c) (length_clearDerived c).1 (length_clearDerived c).2

/-! ### Read back -/

omit [ColumnIndex ι] in
/-- The codes of a dictionary that has been read are numbers of its strings. -/
theorem codesOfDict_lt {dict : List Bytes} {k : ℕ} (h : codesOfDict dict str = some k) :
    k < dict.length ∧ k < 2 ^ 32 := by
  have hfold : ∀ (l : List (Bytes × ℕ)) (codes : Bytes → Option ℕ),
      (∀ e ∈ l, e.2 < dict.length) → (∀ s k, codes s = some k → k < dict.length ∧ k < 2 ^ 32) →
      ∀ s k, (l.foldl (fun codes e => if (codes e.1).isSome then codes
        else Function.update codes e.1 (some (e.2 % 2 ^ 32))) codes) s = some k →
        k < dict.length ∧ k < 2 ^ 32 := by
    intro l
    induction l with
    | nil => exact fun codes _ h => h
    | cons e l ih =>
      intro codes hl hcodes
      refine ih _ (fun e' he' => hl e' (List.mem_cons_of_mem e he')) fun s k hk => ?_
      dsimp only at hk
      split_ifs at hk
      · exact hcodes s k hk
      · by_cases hs : s = e.1
        · subst hs
          rw [Function.update_self] at hk
          cases hk
          exact ⟨(Nat.mod_le _ _).trans_lt (hl e List.mem_cons_self), Nat.mod_lt _ (by decide)⟩
        · rw [Function.update_of_ne hs] at hk
          exact hcodes s k hk
  refine hfold dict.zipIdx (fun _ => none) (fun e he => ?_) nofun str k h
  have := List.snd_lt_of_mem_zipIdx he
  omega

omit [ColumnIndex ι] in
/-- The entries of the counts and the postings are made once the dictionary is there. -/
theorem Led.sizeDerived (h : c.Led) : c.sizeDerived.Coded := by
  obtain ⟨l, p, hl, hp, -, he⟩ := exists_sizeDerived c h.strings
  rw [he]
  exact ⟨⟨h.codes, h.strings, fun i => (h.leads i).mono rfl le_rfl⟩, hl, hp⟩

omit [ColumnIndex ι] in
theorem mem_getD_set {l : List (List ℕ)} {x : List ℕ} {j k : ℕ} (hk : k ∈ (l.set i x).getD j []) :
    k ∈ x ∨ k ∈ l.getD j [] := by
  rw [List.getD_eq_getElem?_getD, List.getElem?_set] at hk
  split_ifs at hk
  · exact .inl hk
  · cases hk
  · rw [← List.getD_eq_getElem?_getD] at hk
    exact .inr hk

omit [ColumnIndex ι] in
/-- Terms are interned again. -/
theorem Led.reintern (h : c.Led) (ht : c.type = .text) (i : InternalId) : (c.reintern i).Led := by
  unfold Column.reintern
  split_ifs
  · obtain ⟨hled, hterms⟩ := internTerms_keeps (K := Led) (fun _ => id)
      (fun _ str h ht => (h.intern (.inr ht) str).1) h ht (c.rawText.getD i [])
    have htype : (c.internTerms (c.rawText.getD i [])).1.type = .text :=
      (type_internTerms c _).trans ht
    refine ⟨hled.codes, hled.strings, fun j => ⟨fun _ k hk => ?_, fun hn => ?_, fun hn => ?_⟩⟩
    · exact (mem_getD_set hk).elim (hterms k) ((hled.leads j).text htype k)
    · exact absurd (htype.symm.trans hn) (by decide)
    · exact absurd (htype.symm.trans hn) (by decide)
  · exact h

/-- The codes of what is read back have their entries, though they may be others than before. -/
theorem Coded.reread (h : c.Coded) (spec : AttrSpec) : (c.reread (new spec)).Coded := by
  have hfold : ∀ (l : List InternalId) (y : Column ι), y.Led → y.type = .text →
      (l.foldl Column.reintern y).Led := by
    intro l
    induction l with
    | nil => exact fun y hy _ => hy
    | cons i l ih =>
      exact fun y hy ht => ih (y.reintern i) (hy.reintern ht i) ((type_reintern y i).trans ht)
  unfold Column.reread
  refine Led.sizeDerived ?_
  split_ifs with htext
  · -- no terms are read, they are made
    refine hfold _ _ ⟨fun s k => codesOfDict_lt, h.strings, fun i => ?_⟩ htext
    refine ⟨fun _ k hk => ?_, fun hn => ?_, fun hn => ?_⟩
    · have hnil : (List.replicate c.rawText.length ([] : List ℕ)).getD i [] = [] := by
        rw [List.getD_eq_getElem?_getD, List.getElem?_replicate]
        split_ifs <;> rfl
      have hk : k ∈ (List.replicate c.rawText.length ([] : List ℕ)).getD i [] := hk
      rw [hnil] at hk
      cases hk
    · exact absurd (htext.symm.trans hn) (by decide)
    · exact absurd (htext.symm.trans hn) (by decide)
  · refine ⟨fun s k => codesOfDict_lt, h.strings, fun i => ?_⟩
    exact ⟨fun hn => absurd hn htext, (h.leads i).tag, (h.leads i).bool⟩

theorem Coded.rebuildRow (h : c.Coded) (i : InternalId) : (c.rebuildRow i).state.Coded :=
  (h.adjust i true).posted i

/-! ### What the operations keep -/

theorem Fine.adjust {a : ℕ} (h : c.Fine a n) (i : InternalId) (b : Bool) :
    (c.adjust i b).state.Fine a n :=
  ⟨(sameRows_adjust c i b).sized h.1, h.2.adjust i b⟩

theorem inRange_rebuildAccesses {a : ℕ} (h : c.Fine a n) (hi : i < n) :
    ∀ e ∈ c.rebuildAccesses i, e.InRange := by
  intro e he
  rcases List.mem_append.1 he with he | he
  · exact inRange_adjustAccesses h hi true e he
  · exact inRange_after (inRange_postAccesses (h.adjust i true) hi) e he

theorem inRange_setRowAccesses {a : ℕ} (h : c.Fine a n) (hi : i < n)
    (hv : v.isNull = true ∨ v.type = c.type) (hnarrow : Narrow a v) :
    ∀ e ∈ c.setRowAccesses i v, e.InRange := by
  intro e he
  rcases List.mem_append.1 he with he | he
  · exact inRange_adjustAccesses h hi false e he
  · obtain ⟨hs, hc⟩ := h.adjust i false
    refine inRange_after (fun e he => ?_) e he
    rcases List.mem_append.1 he with he | he
    · exact inRange_rowAccesses hs hi e he
    · have hset := hc.setValue hs hi ((type_adjust c i false).symm ▸ hv) hnarrow
      exact inRange_rebuildAccesses (a := a) ⟨hs.setValue i v, hset⟩ hi e he

/-- Rows are added, and published or taken back. -/
theorem rowwise_fine : Column.Rowwise (ι := ι) Fine Narrow where
  sized h := h.1
  append h hv hnarrow := (h.appendValue hv hnarrow).addPosting _
  copy src h := (h.appendCopy src).addPosting _
  adjust i b h := h.adjust i b

theorem Fine.setRow {a : ℕ} (h : c.Fine a n) (hi : i < n) (hv : v.isNull = true ∨ v.type = c.type)
    (hnarrow : Narrow a v) : (c.setRow i v).state.Fine a n :=
  ⟨h.1.setRow i v, h.2.setRow h.1 hi hv hnarrow⟩

theorem Fine.permute {a : ℕ} (h : c.Fine a n) (live : List InternalId) :
    (c.permute live).state.Fine a live.length :=
  ⟨h.1.permute live, h.2.permute h.1 live⟩

theorem Fine.clearDerived {a : ℕ} (h : c.Fine a n) : c.clearDerived.Fine a n :=
  ⟨(sameData_clearDerived c).toSameRows.sized h.1, h.2.clearDerived⟩

theorem Fine.rebuildRow {a : ℕ} (h : c.Fine a n) (i : InternalId) :
    (c.rebuildRow i).state.Fine a n :=
  ⟨((sameRows_adjust c i true).sized h.1).posted i, h.2.rebuildRow i⟩

theorem Fine.reread {a : ℕ} (h : c.Fine a n) (spec : AttrSpec) :
    (c.reread (new spec)).Fine a n := ⟨(reread_keeps h.1 ⟨rfl, rfl, rfl⟩).1, h.2.reread spec⟩

end Column

/-! ### Runs -/

section Loops

variable {ι : Type} {n k : ℕ} {cs : List (Column ι)} {accesses : ℕ → Column ι → List (Access ι)}
  {f : ℕ → Column ι → Outcome (Column ι) Unit}

theorem inRange_loopAccesses
    (h : ∀ a c, cs[a]? = some c → ∀ e ∈ accesses (k + a) c, Column.Access.InRange e) :
    ∀ e ∈ loopAccesses accesses f k cs, e.InRange := by
  induction cs generalizing k with
  | nil => exact fun _ he => absurd he List.not_mem_nil
  | cons c cs ih =>
    intro e he
    rcases List.mem_append.1 he with he | he
    · exact h 0 c rfl e he
    · split at he
      · refine ih (fun a c hc => ?_) e he
        rw [Nat.add_right_comm]
        exact h (a + 1) c hc
      · cases he

end Loops

/-- Every Bool is `0` or `1` in its low 32 bits. -/
def Record.NarrowBools (rec : Record) : Prop :=
  ∀ v ∈ rec.attrs, v.type = .bool → v.raw.toNat % 2 ^ 32 < 2

instance (rec : Record) : Decidable rec.NarrowBools :=
  inferInstanceAs (Decidable (∀ v ∈ rec.attrs, v.type = .bool → v.raw.toNat % 2 ^ 32 < 2))

theorem Record.NarrowBools.attr {rec : Record} (h : rec.NarrowBools) (a : ℕ) :
    Column.Narrow a (rec.attr a) := by
  unfold Record.attr
  rw [List.getD_eq_getElem?_getD]
  cases ha : rec.attrs[a]? with
  | none => exact nofun
  | some v => exact h v (List.mem_of_getElem? ha)

namespace MetadataStore

variable {ι : Type} [ColumnIndex ι] {s : MetadataStore ι} {schema : List AttrSpec} {n : ℕ}
  {rec : Record}

theorem inRange_rebuildRows (deleted : List Bool) (ids : List InternalId) (cs : List (Column ι))
    (hids : ∀ i ∈ ids, i < n) (hcs : ∀ (a : ℕ) (c : Column ι), cs[a]? = some c → c.Fine a n) :
    (∀ e ∈ rebuildRowsAccesses deleted ids cs, e.InRange) ∧
      (rebuildRows deleted ids cs).state.length = cs.length ∧
      ∀ (a : ℕ) (c' : Column ι), (rebuildRows deleted ids cs).state[a]? = some c' →
        ∃ c, cs[a]? = some c ∧ c'.type = c.type ∧ c'.Fine a n := by
  induction ids generalizing cs with
  | nil =>
    exact ⟨fun _ he => absurd he List.not_mem_nil, rfl, fun a c hc => ⟨c, hc, rfl, hcs a c hc⟩⟩
  | cons i ids ih =>
    have hlater := fun i hi => hids i (List.mem_cons_of_mem _ hi)
    rw [rebuildRowsAccesses, rebuildRows]
    split_ifs with hdel
    · exact ih cs hlater hcs
    -- the columns as the round leaves them, whether it throws or not
    have hround : ∀ e ∈ loopAccesses (fun _ c => c.rebuildAccesses i)
        (fun _ c => c.rebuildRow i) 0 cs, e.InRange := inRange_loopAccesses fun a c hc =>
      Column.inRange_rebuildAccesses (hcs a c hc) (hids i List.mem_cons_self)
    obtain ⟨hlen, hall⟩ := forColumns_state (fun _ (c : Column ι) => c.rebuildRow i) 0 cs
    have hfine : ∀ (a : ℕ) (c' : Column ι),
        (forColumns (fun _ (c : Column ι) => c.rebuildRow i) 0 cs).state[a]? = some c' →
          ∃ c, cs[a]? = some c ∧ c'.type = c.type ∧ c'.Fine a n := fun a c' hc' => by
      obtain ⟨c, hc, hc' | hc'⟩ := hall a c' hc'
      · exact ⟨c, hc, congrArg Column.type hc', hc' ▸ hcs a c hc⟩
      · exact ⟨c, hc, hc' ▸ Column.type_rebuildRow c i, hc' ▸ (hcs a c hc).rebuildRow i⟩
    cases hf : forColumns (fun _ (c : Column ι) => c.rebuildRow i) 0 cs with
    | error e cs' =>
      rw [hf] at hlen hfine
      refine ⟨fun e he => ?_, hlen, hfine⟩
      rw [List.append_nil] at he
      exact hround e he
    | ok _ cs' =>
      rw [hf] at hlen hfine
      obtain ⟨hin, hlen', hall'⟩ := ih cs' hlater fun a c hc => by
        obtain ⟨-, -, -, hc⟩ := hfine a c hc
        exact hc
      refine ⟨fun e he => (List.mem_append.1 he).elim (hround e) (hin e), hlen'.trans hlen,
        fun a c' hc' => ?_⟩
      obtain ⟨c₁, hc₁, ht₁, hc'⟩ := hall' a c' hc'
      obtain ⟨c, hc, ht, -⟩ := hfine a c₁ hc₁
      exact ⟨c, hc, ht₁.trans ht, hc'⟩

theorem inRange_rebuildDerivedState (h : s.ShapedBy Column.Fine schema n) (deleted : List Bool) :
    (∀ e ∈ s.rebuildDerivedStateAccesses deleted, e.InRange) ∧
      (s.rebuildDerivedState deleted).state.ShapedBy Column.Fine schema n := by
  obtain ⟨hin, hlen, hall⟩ := inRange_rebuildRows deleted (List.range s.rows)
    (s.columns.map Column.clearDerived) (fun i hi => (List.mem_range.1 hi).trans_eq h.counts.2)
    fun a c hc => by
      obtain ⟨c₀, hc₀, rfl⟩ := Option.map_eq_some_iff.1 ((List.getElem?_map ..).symm.trans hc)
      exact (h.column hc₀).clearDerived
  refine ⟨hin, ?_⟩
  unfold rebuildDerivedState
  rw [Outcome.state_mapState]
  refine h.of rfl rfl (hlen.trans (List.length_map _)) (fun a c' hc' => ?_) h.counts.1 h.counts.2
  obtain ⟨c₁, hc₁, ht₁, hc'⟩ := hall a c' hc'
  obtain ⟨c, hc, rfl⟩ := Option.map_eq_some_iff.1 ((List.getElem?_map ..).symm.trans hc₁)
  exact ⟨c, hc, ht₁.trans (Column.type_clearDerived c), hc'⟩

/-- The store that is loaded from the bytes of this one. -/
theorem ShapedBy.loaded (h : s.ShapedBy Column.Fine schema n) (hfit : s.SizesFit)
    (hdict : ∀ c ∈ s.columns, c.dict.length < 2 ^ 64) :
    s.loaded = .ok s.reread ∧ s.reread.ShapedBy Column.Fine schema n := by
  have hshape := h
  obtain ⟨rows, hlen, hs⟩ := h
  obtain ⟨t, ht⟩ : ∃ t : MetadataStore ι, new schema = .ok t := new_ok hs.checked
  constructor
  · have hreads := hs.rereads (fun a c rows hc => hc.1) hfit hdict ht []
    rw [List.append_nil] at hreads
    unfold MetadataStore.loaded
    rw [hs.declared, ht]
    dsimp only
    rw [hreads]
    rfl
  · have hcolumns : s.reread.columns.length = s.columns.length := by
      rw [reread, List.length_zipWith, List.length_map, hs.declared, ← hs.columns, min_self]
    refine hshape.of rfl rfl hcolumns (fun a c' hc' => ?_) hshape.counts.1 hshape.counts.2
    rw [reread, List.getElem?_zipWith_eq_some] at hc'
    obtain ⟨c, u, hc, hu, rfl⟩ := hc'
    obtain ⟨spec, -, rfl⟩ := Option.map_eq_some_iff.1 ((List.getElem?_map ..).symm.trans hu)
    exact ⟨c, hc, Column.type_reread c _, (hshape.column hc).reread spec⟩

/-- What is asked of an operation: its rows are there, and every Bool is `0` or `1` in the 32 bits
that are its code.  A `permute` that throws leaves columns of different lengths. -/
def Allowed (s : MetadataStore ι) : Command → Prop
  | .appendRow rec => validate s.schema rec = .ok () → rec.NarrowBools
  | .appendRowCopy src => src < s.rows
  | .setRow id rec => id < s.rows ∧ (validate s.schema rec = .ok () → rec.NarrowBools)
  | .markLive id => id < s.rows
  | .markDead id => id < s.rows
  | .permute live => (∀ i ∈ live, i < s.rows) ∧ ∃ s', s.permute live = .ok () s'
  | .rebuildDerivedState _ => True
  | .reload _ => s.SizesFit ∧ ∀ c ∈ s.columns, c.dict.length < 2 ^ 64

/-- Any row can be read. -/
def ReadsInRange (s : MetadataStore ι) : Prop :=
  ∀ id < s.rows, ∀ e ∈ s.getRowAccesses id, Column.Access.InRange e

omit [ColumnIndex ι] in
theorem ShapedBy.readsInRange (h : s.ShapedBy Column.Fine schema n) : s.ReadsInRange := by
  intro i hi e he
  obtain ⟨c, hc, he⟩ := List.mem_flatMap.1 he
  obtain ⟨a, ha⟩ := List.getElem?_of_mem hc
  exact Column.inRange_getAccesses (h.column ha) (h.counts.2 ▸ hi) e he

/-- One operation. -/
theorem ShapedBy.inRange_accesses (h : s.ShapedBy Column.Fine schema n) {cmd : Command}
    (hc : s.Allowed cmd) : (∀ e ∈ s.accesses cmd, e.InRange) ∧
      ∃ m, (s.command cmd).state.ShapedBy Column.Fine schema m := by
  have hrows := h.counts.2
  cases cmd with
  | appendRow rec =>
    cases hv : validate s.schema rec with
    | error e =>
      dsimp only [accesses, command, MetadataStore.appendRow]
      rw [hv]
      exact ⟨fun _ he => absurd he List.not_mem_nil, n, h⟩
    | ok _ =>
      obtain ⟨s', he, hs'⟩ := h.appendRow Column.rowwise_fine hv (hc hv).attr
      refine ⟨fun e hmem => ?_, n + 1, ?_⟩
      · dsimp only [accesses] at hmem
        rw [hv] at hmem
        obtain ⟨c₁, hc₁, hmem⟩ := List.mem_flatMap.1 hmem
        obtain ⟨a, ha⟩ := List.getElem?_of_mem hc₁
        obtain ⟨c, hcol, rfl⟩ := Option.map_eq_some_iff.1 ((List.getElem?_mapIdx ..).symm.trans ha)
        exact Column.inRange_postAccesses
          ((h.column hcol).appendValue (h.typed hv hcol) ((hc hv).attr a))
          (hrows ▸ Nat.lt_succ_self n) e hmem
      · dsimp only [command]
        rw [he]
        exact hs'
  | appendRowCopy src =>
    refine ⟨fun e hmem => ?_, n + 1, h.appendRowCopy Column.rowwise_fine src⟩
    rcases List.mem_append.1 hmem with hmem | hmem
    · obtain ⟨c, hcol, hmem⟩ := List.mem_flatMap.1 hmem
      obtain ⟨a, ha⟩ := List.getElem?_of_mem hcol
      exact Column.inRange_rowAccesses (h.column ha).1 (hrows ▸ hc) e hmem
    · obtain ⟨c₁, hc₁, hmem⟩ := List.mem_flatMap.1 hmem
      obtain ⟨c, hcol, rfl⟩ := List.mem_map.1 hc₁
      obtain ⟨a, ha⟩ := List.getElem?_of_mem hcol
      exact Column.inRange_postAccesses ((h.column ha).appendCopy src)
        (hrows ▸ Nat.lt_succ_self n) e hmem
  | setRow id rec =>
    obtain ⟨hlt, hnarrow⟩ := hc
    cases hv : validate s.schema rec with
    | error e =>
      dsimp only [accesses, command, MetadataStore.setRow]
      rw [hv]
      exact ⟨fun _ he => absurd he List.not_mem_nil, n, h⟩
    | ok _ =>
      have hset := fun (a : ℕ) (c : Column ι) (ha : s.columns[a]? = some c) =>
        (h.column ha).setRow (hrows ▸ hlt) (h.typed hv ha) ((hnarrow hv).attr a)
      refine ⟨?_, n, h.setRow id hset⟩
      dsimp only [accesses]
      rw [hv]
      refine inRange_loopAccesses fun a c ha => ?_
      rw [Nat.zero_add]
      exact Column.inRange_setRowAccesses (h.column ha) (hrows ▸ hlt) (h.typed hv ha)
        ((hnarrow hv).attr a)
  | markLive id =>
    refine ⟨inRange_loopAccesses fun a c ha => ?_, n, h.adjust Column.rowwise_fine id true⟩
    exact Column.inRange_adjustAccesses (h.column ha) (hrows ▸ hc) true
  | markDead id =>
    refine ⟨inRange_loopAccesses fun a c ha => ?_, n, h.adjust Column.rowwise_fine id false⟩
    exact Column.inRange_adjustAccesses (h.column ha) (hrows ▸ hc) false
  | permute live =>
    obtain ⟨hlive, s', he⟩ := hc
    refine ⟨inRange_loopAccesses fun a c ha => ?_, live.length, ?_⟩
    · exact Column.inRange_permuteAccesses (h.column ha) fun i hi => hrows ▸ hlive i hi
    · dsimp only [command]
      rw [he]
      refine h.permute (fun a c c' ha hp => ?_) he
      have := (h.column ha).permute live
      rwa [hp] at this
  | rebuildDerivedState deleted =>
    obtain ⟨hin, hs⟩ := inRange_rebuildDerivedState h deleted
    exact ⟨hin, n, hs⟩
  | reload deleted =>
    obtain ⟨hloaded, hs⟩ := h.loaded hc.1 hc.2
    obtain ⟨hin, hs⟩ := inRange_rebuildDerivedState hs deleted
    dsimp only [accesses, command]
    rw [hloaded]
    exact ⟨hin, n, hs⟩

/-- **Every index is in range**, in every run on rows that are there. -/
theorem accesses_run {s₀ : MetadataStore ι} (hnew : new schema = .ok s₀) (cmds : List Command)
    (hrun : Run.Along (fun s cmd => (s.command cmd).state) Allowed s₀ cmds) :
    Run.Along (fun s cmd => (s.command cmd).state)
        (fun s cmd => (∀ e ∈ s.accesses cmd, e.InRange) ∧ s.ReadsInRange) s₀ cmds ∧
      (cmds.foldl (fun s cmd => (s.command cmd).state) s₀).ReadsInRange := by
  have hnew' : ∃ n, s₀.ShapedBy Column.Fine schema n :=
    ⟨0, [], rfl, holds_new hnew fun _ spec _ => ⟨Column.sized_new spec, Column.coded_new spec⟩⟩
  have hstep : ∀ (s : MetadataStore ι) cmd, (∃ n, s.ShapedBy Column.Fine schema n) →
      s.Allowed cmd → ∃ n, (s.command cmd).state.ShapedBy Column.Fine schema n := by
    rintro s cmd ⟨n, hs⟩ hc
    exact (hs.inRange_accesses hc).2
  constructor
  · refine Run.Along.always hstep ?_ hnew' hrun
    rintro s cmd ⟨n, hs⟩ hc
    exact ⟨(hs.inRange_accesses hc).1, hs.readsInRange⟩
  · obtain ⟨n, hs⟩ := Run.Along.invariant hstep hnew' hrun
    exact hs.readsInRange

/-- The condition is needed: another Bool is posted beyond the two lists of its column. -/
theorem ShapedBy.posts_out_of_range (h : s.ShapedBy Column.Fine schema n)
    (hv : validate s.schema rec = .ok ()) {a : ℕ} {c : Column ι} (hc : s.columns[a]? = some c)
    (ht : c.type = .bool) (hvalue : (rec.attr a).isNull = false)
    (hwide : ¬ Column.Narrow a (rec.attr a)) : ∃ e ∈ s.accesses (.appendRow rec), ¬ e.InRange := by
  obtain ⟨hs, hcoded⟩ := h.column hc
  have htype : (rec.attr a).type = .bool :=
    ((h.typed hv hc).resolve_left (by simp [hvalue])).trans ht
  have hle : 2 ≤ (rec.attr a).raw.toNat % 2 ^ 32 := Nat.le_of_not_lt fun hlt => hwide fun _ => hlt
  have hcell : c.cellOf (rec.attr a) = (c, { data := (rec.attr a).raw, present := true }) := by
    simp [Column.cellOf, hvalue, ht, htype]
  set c' := c.appendValue (rec.attr a) with hc'
  have hpush : c' = c.push { data := (rec.attr a).raw, present := true } := by
    rw [hc', Column.appendValue_eq, hcell]
  have hat : c'.cellAt n = { data := (rec.attr a).raw, present := true } := by
    rw [hpush, hs.cellAt_push (fun _ => ⟨rfl, rfl, rfl⟩) le_rfl, if_pos rfl]
  have htype' : c'.type = .bool := by
    rw [hpush, Column.type_push, ht]
  have hpostings : c'.postings.length = 2 := by
    have hlen : c'.postings = c.postings := by
      rw [hpush]
      simp [Column.push, ht]
    rw [hlen, hcoded.postings, Column.width, if_pos ht]
  refine ⟨(c', .postings, (rec.attr a).raw.toNat % 2 ^ 32), ?_, fun hin => ?_⟩
  · dsimp only [accesses]
    rw [hv, h.counts.2]
    refine List.mem_flatMap.2 ⟨c', List.mem_iff_getElem?.2 ⟨a, ?_⟩, ?_⟩
    · rw [List.getElem?_mapIdx, hc]
      rfl
    · have hpresent : c'.isPresent n = true := congrArg Cell.present hat
      have hdata : c'.data.getD n 0 = (rec.attr a).raw := congrArg Cell.data hat
      have hcode : (rec.attr a).raw.toNat % 2 ^ 32 ∈ c'.codesAt n := by
        rw [Column.codesAt, htype', ← hdata]
        exact List.mem_singleton_self _
      refine List.mem_cons_of_mem _ ?_
      rw [if_neg (not_not.2 hpresent), Column.codeAccesses, htype']
      exact List.mem_cons_of_mem _ (List.mem_map.2 ⟨_, hcode, rfl⟩)
  · exact absurd (hin.trans_eq hpostings) (Nat.not_lt.2 hle)

/-! ### A store with a flag and a tag -/

def flagSchema : List AttrSpec := [⟨ascii "flag", .bool, false⟩, ⟨ascii "tag", .tag, false⟩]

/-- The store the run starts from. -/
def flagStore : MetadataStore PairIndex where
  schema := flagSchema
  columns := flagSchema.map Column.new
  payload := []
  rows := 0
  fingerprint := computeFingerprint flagSchema

/-- Rows are added, published, copied, overwritten, removed and renumbered. -/
def flagRun : List Command :=
  [.appendRow ⟨[attrBool true, attrTag (ascii "a")], []⟩, .markLive 0, .appendRowCopy 0,
    .markDead 0, .markLive 1, .setRow 1 ⟨[attrNull, attrTag (ascii "b")], [7]⟩, .permute [1],
    .rebuildDerivedState [false], .reload [false]]

theorem accesses_flagRun : Run.Along (fun s cmd => (s.command cmd).state)
      (fun s cmd => (∀ e ∈ s.accesses cmd, e.InRange) ∧ s.ReadsInRange) flagStore flagRun ∧
    (flagRun.foldl (fun s cmd => (s.command cmd).state) flagStore).ReadsInRange :=
  accesses_run (show new flagSchema = .ok flagStore from rfl) flagRun
    ⟨fun _ => by decide, Nat.zero_lt_one, Nat.zero_lt_one, Nat.zero_lt_two, Nat.one_lt_two,
      ⟨Nat.one_lt_two, fun _ => by decide⟩, ⟨by decide +kernel, permute_returns _ _⟩,
      trivial, ⟨by decide +kernel, by decide +kernel⟩, trivial⟩

/-- `validate` looks at the types only, and lets a Bool with `raw = 2` through. -/
theorem flag_out_of_range :
    (new flagSchema : Except Exn (MetadataStore PairIndex)) = .ok flagStore ∧
    validate flagSchema ⟨[⟨.bool, 2, []⟩, attrNull], []⟩ = .ok () ∧
      ¬ ∀ e ∈ flagStore.accesses (.appendRow ⟨[⟨.bool, 2, []⟩, attrNull], []⟩), e.InRange := by
  refine ⟨rfl, rfl, ?_⟩
  decide

end MetadataStore

end Metadata

end Vdb
