import Vdb.Metadata.Lists
import Mathlib.Data.List.Sort

/-!
# Searching a column of texts

`search_text` collects the rows that the lists of the query's terms name, and ranks them by scores
in floating point, which are a parameter here.  Which rows it answers with does not depend on them.

* `Column.Texts` : a column of texts holds its rows, whatever is written, if there are codes enough.
* `MetadataStore.mem_candidates` : where the lists name no row that has lost the term, the
  candidates are the live rows with a token of the query.
-/

namespace Vdb

namespace Metadata

/-- The floating-point part of the ranking, with `k1` and `b`. -/
structure Bm25 (σ : Type) where
  /-- The score of a text, from the number of live texts, the sum of their token counts, the token
  count of the text and, for each term of the query that it has, the live texts with the term and
  the number of times that it has it, which is counted in 32 bits. -/
  score : ℕ → ℕ → ℕ → List (ℕ × ℕ) → σ
  /-- `x.score > y.score`. -/
  above : σ → σ → Bool

structure TextMatch (σ : Type) where
  id : InternalId
  score : σ
  deriving DecidableEq

/-- The list of a term names a row with a text if the text has the term. -/
def PostRule.current : PostRule where
  Allows p b m := p → (b ↔ 0 < m)
  absent _ _ := ⟨False.elim, fun h => absurd h (lt_irrefl 0)⟩
  once _ _ := ⟨fun _ => Nat.one_pos, fun _ => trivial⟩

namespace Column

variable {ι : Type} {c c' : Column ι} {rows : List ColRow}

/-- The value is null, or every list that names the row is that of a term of the value. -/
def Covers (c : Column ι) (i : InternalId) (v : AttrValue) : Prop :=
  v.isNull = true ∨ ∀ k < c.postings.length, i ∈ c.postings.getD k [] → k ∈ c.codesOf v

instance (c : Column ι) (i : InternalId) (v : AttrValue) : Decidable (c.Covers i v) :=
  inferInstanceAs (Decidable (v.isNull = true ∨
    ∀ k < c.postings.length, i ∈ c.postings.getD k [] → k ∈ c.codesOf v))

theorem adheres_covers : Adheres (ι := ι) .current Covers := by
  intro c n S i v _ _ _ hcovers k hnot
  have hcovers := hcovers.resolve_left (by rw [hnot]; exact Bool.false_ne_true)
  by_cases hk : k ∈ c.codesOf v
  · rw [if_pos hk]
    exact ⟨fun _ => Nat.succ_pos _, fun _ => hk⟩
  · rw [if_neg hk, Nat.add_zero]
    refine ⟨fun h => absurd h hk, fun hpos => hcovers k ?_ (List.count_pos_iff.1 hpos)⟩
    by_contra hle
    unfold timesPosted at hpos
    rw [List.getD_eq_default _ _ (not_lt.1 hle)] at hpos
    exact absurd hpos (lt_irrefl 0)

/-! ### The rows of a column of texts -/

/-- A column of texts holds the rows, if there are codes enough for its terms. -/
structure Texts (c : Column ι) (rows : List ColRow) : Prop where
  sized : c.Sized rows.length
  ok : c.type = .text → c.dict.length ≤ 2 ^ 32 → c.Ok rows

section Operations

variable [ColumnIndex ι]

theorem texts_new (spec : AttrSpec) : (new spec : Column ι).Texts [] where
  sized := sized_new spec
  ok _ _ := ok_new spec

omit [ColumnIndex ι] in
/-- In a column of texts no value is a Bool. -/
theorem takes_of_text {v : AttrValue} (ht : c.type = .text)
    (hv : v.isNull = true ∨ v.type = c.type) : c.Takes v where
  typed := hv
  bool hb := by
    rcases hv with hnull | htype
    · unfold AttrValue.isNull at hnull
      rw [hb] at hnull
      cases hnull
    · rw [hb, ht] at htype
      cases htype

/-- A text is written into a column without an index, and published. -/
theorem Ok.insertText (h : c.Ok rows) (ht : c.type = .text) (hnone : c.index = none) {text : Bytes}
    (hfit : (c.internTerms text).1.dict.length ≤ 2 ^ 32) :
    ∃ c', ((c.appendValue (attrText text)).addPosting rows.length).adjust rows.length true =
        .ok () c' ∧
      c'.Ok (rows ++ [(true, attrText text)]) ∧ c'.type = .text ∧ c'.index = none ∧
      c'.dict = (c.internTerms text).1.dict := by
  have hcell : (c.cellOf (attrText text)).1 = (c.internTerms text).1 := by
    unfold cellOf
    rw [if_neg (show ¬ (attrText text).isNull = true from Bool.false_ne_true), if_pos ht]
    rfl
  set c₁ := (c.appendValue (attrText text)).addPosting rows.length with hc₁
  have hdict : c₁.dict = (c.internTerms text).1.dict := by
    rw [hc₁, dict_addPosting, appendValue_eq, dict_push, hcell]
  have hok : c₁.Ok (rows ++ [(false, attrText text)]) :=
    h.appendValue (takes_of_text ht (.inr ht.symm)) _ (hdict ▸ hfit)
  have hnone₁ : c₁.index = none := by
    rw [hc₁, index_addPosting, index_appendValue, hnone]
  have htype : c₁.type = .text := by
    rw [hc₁, type_addPosting, type_appendValue, ht]
  have hadjust := adjust_of_index_none hnone₁ rows.length true
  have hlive := hok.adjustCount (b := true) (List.getElem?_concat_length ..)
  have htype' := type_adjust c₁ rows.length true
  have hdict' := dict_adjust c₁ rows.length true
  rw [hadjust] at htype' hdict'
  refine ⟨_, hadjust, ?_, htype'.trans htype, (index_adjustCount ..).trans hnone₁,
    hdict'.trans hdict⟩
  rwa [List.set_append_right _ _ le_rfl, Nat.sub_self] at hlive

/-- Nothing is asked of the values. -/
theorem invariant_texts :
    Column.Invariant (ι := ι) False (fun _ c rows => c.Texts rows) anyWrite where
  ok hE := hE.elim
  append {a c rows v} h hv _ :=
    { sized := by
        rw [List.length_append]
        exact (sameRows_addPosting _ _).sized (h.sized.appendValue v)
      ok := fun ht hfit => by
        rw [type_addPosting, type_appendValue] at ht
        have hold : c.dict.length ≤ 2 ^ 32 := by
          rw [dict_addPosting, appendValue_eq, dict_push] at hfit
          exact (length_dict_cellOf c v).trans hfit
        exact (h.ok ht hold).appendValue (takes_of_text ht hv) _ hfit }
  copy {a c rows i r} h hi :=
    { sized := by
        rw [List.length_append, appendCopy_eq]
        exact (sameRows_addPosting _ _).sized (h.sized.push _)
      ok := fun ht hfit => by
        rw [appendCopy_eq, type_addPosting, type_push] at ht
        rw [dict_addPosting, appendCopy_eq, dict_push] at hfit
        exact (h.ok ht hfit).appendCopy hi _ }
  adjust {a c c' rows i b v} h hi he :=
    { sized := by
        have hsized := (sameRows_adjust c i b).sized h.sized
        rw [List.length_set]
        rwa [he] at hsized
      ok := fun ht hfit => by
        have htype := type_adjust c i b
        have hdict := dict_adjust c i b
        rw [he] at htype hdict
        have := (h.ok (htype ▸ ht) (hdict ▸ hfit)).adjust hi
        rwa [he] at this }
  setRow {a c c' rows i w v} h hi hv _ he _ :=
    { sized := by
        have hsized := h.sized.setRow i v
        rw [List.length_set]
        rwa [he] at hsized
      ok := fun ht hfit => by
        have htype := type_setRow c i v
        have hold := length_dict_setRow c i v
        rw [he] at htype hold
        have := (h.ok (htype ▸ ht) (hold.trans hfit)).setRow hi (takes_of_text (htype ▸ ht) hv)
          (by rwa [he])
        rwa [he] at this }
  permute {a c c' rows live} h hn hlive he :=
    { sized := by
        have hsized := h.sized.permute live
        rw [he] at hsized
        rwa [kept, List.length_map]
      ok := fun ht hfit => by
        have htype := type_permute c live
        have hdict := dict_permute c live
        rw [he] at htype hdict
        have := (h.ok (htype ▸ ht) (hdict ▸ hfit)).permute hn hlive
        rwa [he] at this }
  clearRows {a c rows} h :=
    { sized := h.sized.clearRows
      ok := fun ht hfit => by
        rw [type_clearRows] at ht
        rw [dict_clearRows] at hfit
        exact (h.ok ht hfit).clearRows }

/-- What is read back of a column of texts. -/
theorem Texts.reread (h : c.Texts rows) (spec : AttrSpec) :
    (c.reread (new spec)).clearDerived.Texts (unpublished rows) where
  sized := by
    rw [unpublished, List.length_map]
    exact h.sized.reread spec
  ok ht hfit := by
    rw [type_clearDerived, type_reread] at ht
    rw [dict_clearDerived] at hfit
    have hok := h.ok ht ((length_dict_reread c _).trans hfit)
    have hrestored := (hok.restored (t := new spec) ⟨rfl, rfl⟩).clearDerived
    rw [hok.reread ⟨rfl, rfl, rfl⟩]
    rwa [unpublished_unpublished] at hrestored

theorem Texts.rebuildRow {i : InternalId} {v : AttrValue} (h : c.Texts rows)
    (hi : rows[i]? = some (false, v)) (he : c.rebuildRow i = .ok () c') :
    c'.Texts (rows.set i (true, v)) where
  sized := by
    rw [List.length_set]
    exact h.sized.rebuildRow he
  ok ht hfit := by
    have hsame := sameData_rebuildRow he
    have hok := (h.ok (hsame.type ▸ ht) (hsame.dict ▸ hfit)).rebuildRow hi
    rwa [he] at hok

end Operations

end Column

namespace MetadataStore

variable {ι σ : Type} (s : MetadataStore ι) (B : Bm25 σ) (attr : ℕ)

/-- The rows that the lists of the codes name and that may be reported, each once. -/
def candidates (codes : List ℕ) (deleted : List Bool) (allowlist : Option (List InternalId)) :
    List InternalId :=
  ((codes.flatMap (s.postings attr)).filter fun id =>
    isLive deleted id && (s.column attr).isPresent id &&
      allowlist.all fun allow => decide (id ∈ allow)).dedup

def scoreOf (codes : List ℕ) (id : InternalId) : σ :=
  let c := s.column attr
  let tokens := tokenizeText (c.rawText.getD id [])
  B.score c.liveDocCount c.totalDocLen (c.docLen.getD id 0) (codes.filterMap fun code =>
    let f := tokens.count (c.dict.getD code [])
    if f = 0 then none else some (s.count attr code, f % 2 ^ 32))

def searchText (query : Bytes) (k : ℕ) (deleted : List Bool)
    (allowlist : Option (List InternalId)) :
    Except Exn (List (TextMatch σ)) :=
  let c := s.column attr
  if c.type ≠ .text then
    .error (.invalidArgument (ascii "search_text on attribute '" ++ s.attrName attr ++
      ascii "': " ++
      typeName c.type ++ ascii " columns are not Text"))
  else
    -- terms that have no code match nothing
    let codes := termCodes c.codes query
    if codes = [] then .ok []
    else if s.textLiveCount attr = 0 then .ok []
    else
      let out := (s.candidates attr codes deleted allowlist).map fun id =>
        TextMatch.mk id (s.scoreOf B attr codes id)
      .ok ((out.insertionSort fun x y => ¬ B.above y.score x.score).take k)

/-- The text of the row has a token of the query. -/
def shares (query : Bytes) (id : InternalId) : Bool :=
  !(s.get id attr).isNull &&
    (tokenizeText query).any fun tok => decide (tok ∈ tokenizeText (s.get id attr).text)

variable {s B attr} {query : Bytes} {k : ℕ} {codes : List ℕ} {deleted : List Bool}
  {allowlist : Option (List InternalId)} {i : InternalId}

/-- Where the rows of a column hold texts, a row has a token of the query if it has a code of it. -/
theorem shares_iff (ht : (s.column attr).type = .text) (hd : (s.column attr).Dict) {v : AttrValue}
    (hv : (s.column attr).Stores ((s.column attr).cellAt i) v) :
    s.shares attr query i = true ↔
      ∃ code ∈ termCodes (s.column attr).codes query, (s.column attr).Carries i code := by
  set c := s.column attr with hc
  have hget : (c.get i).carried = v := hv.get hd
  have hnull : (c.get i).isNull = v.isNull := by rw [← hget, AttrValue.isNull_carried]
  unfold shares
  rw [show s.get i attr = c.get i from rfl, hnull, Bool.and_eq_true, Bool.not_eq_true',
    List.any_eq_true]
  constructor
  · rintro ⟨hnot, tok, hquery, htok⟩
    have htype : v.type = .text :=
      (hv.typed.resolve_left (by rw [hnot]; exact Bool.false_ne_true)).trans ht
    have htext : v.text = (c.get i).text := by
      rw [← hget, AttrValue.type_carried] at htype
      rw [← hget, AttrValue.text_carried (.inr htype)]
    rw [← htext] at htok
    have htok := of_decide_eq_true htok
    -- every token of a text that is stored has a code
    obtain ⟨code, hcode⟩ := Option.isSome_iff_exists.1 ((hv.text ht).2.2.2 tok htok)
    refine ⟨code, Column.mem_termCodes.2 ⟨tok, hquery, hcode⟩, (hv.carries hd).2 ?_⟩
    unfold Column.codesOf
    rw [hnot, ht]
    exact Column.mem_termCodes.2 ⟨tok, htok, hcode⟩
  · rintro ⟨code, hquery, hcarries⟩
    have hcode := (hv.carries hd).1 hcarries
    have hnot : v.isNull = false := hv.isPresent_iff.1 hcarries.1
    have htype : v.type = .text :=
      (hv.typed.resolve_left (by rw [hnot]; exact Bool.false_ne_true)).trans ht
    have htext : v.text = (c.get i).text := by
      rw [← hget, AttrValue.type_carried] at htype
      rw [← hget, AttrValue.text_carried (.inr htype)]
    unfold Column.codesOf at hcode
    rw [hnot, ht] at hcode
    obtain ⟨tok, htok, htokcode⟩ := Column.mem_termCodes.1 hquery
    obtain ⟨tok', htok', htokcode'⟩ := Column.mem_termCodes.1 hcode
    -- a code has one string
    have hstring := (hd.codes _ _).1 htokcode
    rw [(hd.codes _ _).1 htokcode'] at hstring
    obtain rfl := Option.some.inj hstring
    exact ⟨hnot, tok', htok, decide_eq_true (htext ▸ htok')⟩

/-- **The candidates** are the live rows with a token of the query, if each list that names a row
with a text is that of a term of it. -/
theorem mem_candidates {S N : InternalId → Prop} {n : ℕ} (ht : (s.column attr).type = .text)
    (hposted : (s.column attr).Posted .current S N n) (hS : isLive deleted i = true → i < n ∧ S i) :
    i ∈ s.candidates attr (termCodes (s.column attr).codes query) deleted allowlist ↔
      isLive deleted i = true ∧ (allowlist.all fun allow => decide (i ∈ allow)) = true ∧
        s.shares attr query i = true := by
  obtain ⟨v, hv⟩ := hposted.exists_stores i
  rw [shares_iff ht hposted.dict hv, candidates, List.mem_dedup, List.mem_filter, List.mem_flatMap,
    Bool.and_eq_true, Bool.and_eq_true]
  constructor
  · rintro ⟨⟨code, hquery, hnamed⟩, ⟨hlive, hpresent⟩, hallow⟩
    obtain ⟨hlt, hs⟩ := hS hlive
    have hcarries := (hposted.posted i hlt hs code hpresent).2 (List.count_pos_iff.2 hnamed)
    exact ⟨hlive, hallow, code, hquery, hcarries⟩
  · rintro ⟨hlive, hallow, code, hquery, hcarries⟩
    obtain ⟨hlt, hs⟩ := hS hlive
    have htimes := (hposted.posted i hlt hs code hcarries.1).1 hcarries
    exact ⟨⟨code, hquery, List.count_pos_iff.1 htimes⟩, ⟨hlive, hcarries.1⟩, hallow⟩

theorem nodup_candidates : (s.candidates attr codes deleted allowlist).Nodup := List.nodup_dedup _

/-- What a search answers with, but for the order. -/
theorem searchText_eq (ht : (s.column attr).type = .text)
    (hcount : s.textLiveCount attr = 0 →
      s.candidates attr (termCodes (s.column attr).codes query) deleted allowlist = []) :
    ∃ found, s.searchText B attr query k deleted allowlist = .ok found ∧
      ∃ all : List InternalId,
        all.Perm (s.candidates attr (termCodes (s.column attr).codes query) deleted allowlist) ∧
        found.map TextMatch.id = all.take k := by
  unfold searchText
  rw [if_neg (not_not.2 ht)]
  dsimp only
  split_ifs with hcodes hzero
  · refine ⟨[], rfl, [], ?_, List.take_nil.symm⟩
    rw [hcodes]
    exact .refl []
  · exact ⟨[], rfl, [], hcount hzero ▸ .refl [], List.take_nil.symm⟩
  · refine ⟨_, rfl, _, ?_, List.map_take⟩
    refine ((List.perm_insertionSort _ _).map TextMatch.id).trans ?_
    rw [List.map_map]
    exact (List.map_id _).symm ▸ .refl _

end MetadataStore

end Metadata

end Vdb
