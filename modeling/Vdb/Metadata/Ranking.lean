import Vdb.Metadata.TextSearch
import Mathlib.Analysis.SpecialFunctions.Log.Basic

/-!
# The ranking of texts

The scores of `search_text` in exact arithmetic, `Bm25.exact`.

* `idf_pos` : no term has more texts than there are, and so it counts for something.
* `MetadataStore.scoreOf_le`, `MetadataStore.scoreOf_lt` : among texts of one length those with more
  of the terms of the query are ranked higher.
* `MetadataStore.scoreOf_perm` : the order and the repetitions of the tokens of a query do not
  matter.
-/

namespace Vdb

namespace Metadata

/-! ### Scores -/

/-- The weight of a term that `df` of `n` live texts have. -/
noncomputable def idf (n df : ℕ) : ℝ := Real.log (1 + (n - df + 0.5) / (df + 0.5))

/-- `text_avg_doc_len`, of `n` texts with `total` tokens. -/
noncomputable def avgDocLen (n total : ℕ) : ℝ := if n = 0 then 0 else total / n

/-- The length of a text against the average. -/
noncomputable def lengthNorm (k1 b avgdl : ℝ) (docLen : ℕ) : ℝ :=
  k1 * (1 - b + b * if 0 < avgdl then docLen / avgdl else 0)

/-- What `f` occurrences of a term of weight `w` add to a score. -/
noncomputable def termScore (k1 norm w : ℝ) (f : ℕ) : ℝ := w * (f * (k1 + 1)) / (f + norm)

/-- The scores of `search_text` with nothing rounded. -/
noncomputable def Bm25.exact (k1 b : ℝ) : Bm25 ℝ where
  score n total docLen terms :=
    (terms.map fun t =>
      termScore k1 (lengthNorm k1 b (avgDocLen n total) docLen) (idf n t.1) t.2).sum
  above x y := decide (y < x)

variable {k1 b avgdl norm w : ℝ} {n total docLen df f f' : ℕ}

/-- A term that is in no more texts than there are counts for something. -/
theorem idf_pos (h : df ≤ n) : 0 < idf n df := by
  have hle : (df : ℝ) ≤ n := Nat.cast_le.2 h
  have hdf : (0 : ℝ) ≤ df := Nat.cast_nonneg df
  refine Real.log_pos (lt_add_of_pos_right 1 (div_pos ?_ ?_))
  · linarith
  · linarith

theorem avgDocLen_pos (hn : 0 < n) (htotal : 0 < total) : 0 < avgDocLen n total := by
  rw [avgDocLen, if_neg hn.ne']
  exact div_pos (Nat.cast_pos.2 htotal) (Nat.cast_pos.2 hn)

theorem lengthNorm_nonneg (hk1 : 0 ≤ k1) (hb0 : 0 ≤ b) (hb1 : b ≤ 1) :
    0 ≤ lengthNorm k1 b avgdl docLen := by
  refine mul_nonneg hk1 (add_nonneg (sub_nonneg.2 hb1) (mul_nonneg hb0 ?_))
  split_ifs with havg
  · exact div_nonneg (Nat.cast_nonneg docLen) havg.le
  · exact le_rfl

/-- A text of some length, among texts of some length. -/
theorem lengthNorm_pos (hk1 : 0 < k1) (hb0 : 0 ≤ b) (hb1 : b ≤ 1) (havg : 0 < avgdl)
    (hlen : 0 < docLen) : 0 < lengthNorm k1 b avgdl docLen := by
  have hratio : 0 < docLen / avgdl := div_pos (Nat.cast_pos.2 hlen) havg
  rw [lengthNorm, if_pos havg]
  refine mul_pos hk1 ?_
  -- either the length counts, or it is left out
  rcases hb0.eq_or_lt with rfl | hb
  · norm_num
  · exact add_pos_of_nonneg_of_pos (sub_nonneg.2 hb1) (mul_pos hb hratio)

/-- A text of any length, if its length does not count for everything. -/
theorem lengthNorm_pos_of_lt (hk1 : 0 < k1) (hb0 : 0 ≤ b) (hb1 : b < 1) :
    0 < lengthNorm k1 b avgdl docLen := by
  refine mul_pos hk1 (add_pos_of_pos_of_nonneg (sub_pos.2 hb1) (mul_nonneg hb0 ?_))
  split_ifs with havg
  · exact div_nonneg (Nat.cast_nonneg docLen) havg.le
  · exact le_rfl

theorem termScore_zero (k1 norm w : ℝ) : termScore k1 norm w 0 = 0 := by
  simp [termScore]

theorem termScore_lt (hk1 : 0 < k1) (hnorm : 0 < norm) (hw : 0 < w) (h : f < f') :
    termScore k1 norm w f < termScore k1 norm w f' := by
  have hf : (0 : ℝ) ≤ f := Nat.cast_nonneg f
  have hlt : (f : ℝ) < f' := Nat.cast_lt.2 h
  unfold termScore
  rw [div_lt_div_iff₀ (by linarith) (by linarith)]
  have hprod : 0 < w * (k1 + 1) * norm * ((f' : ℝ) - f) :=
    mul_pos (mul_pos (mul_pos hw (by linarith)) hnorm) (sub_pos.2 hlt)
  linarith

/-- More occurrences of a term never count for less. -/
theorem termScore_le (hk1 : 0 < k1) (hnorm : 0 ≤ norm) (hw : 0 ≤ w) (h : f ≤ f') :
    termScore k1 norm w f ≤ termScore k1 norm w f' := by
  have hf' : (0 : ℝ) ≤ f' := Nat.cast_nonneg f'
  rcases Nat.eq_zero_or_pos f with rfl | hpos
  · rw [termScore_zero]
    exact div_nonneg (mul_nonneg hw (mul_nonneg hf' (by linarith))) (by linarith)
  · have hf : (0 : ℝ) < f := Nat.cast_pos.2 hpos
    have hle : (f : ℝ) ≤ f' := Nat.cast_le.2 h
    unfold termScore
    rw [div_le_div_iff₀ (by linarith) (by linarith)]
    have hprod : 0 ≤ w * (k1 + 1) * norm * ((f' : ℝ) - f) :=
      mul_nonneg (mul_nonneg (mul_nonneg hw (by linarith)) hnorm) (sub_nonneg.2 hle)
    linarith

/-! ### The statistics of the texts -/

namespace Column

variable {ι : Type} {c : Column ι} {rows : List ColRow} {i : InternalId} {v : AttrValue} {k : ℕ}

/-- A text counts for a term at most once. -/
theorem Ok.count_le (h : c.Ok rows) (ht : c.type = .text) (k : ℕ) :
    c.count.getD k 0 ≤ c.liveDocCount := by
  rw [h.count, h.docCount ht]
  refine List.countP_mono_left fun r _ hr => ?_
  rw [Bool.and_eq_true, decide_eq_true_eq] at hr
  rw [Bool.and_eq_true, Bool.not_eq_true']
  refine ⟨hr.1, ?_⟩
  by_contra hnull
  have hcodes : c.codesOf r.2 = [] := if_pos (Bool.not_eq_false _ ▸ hnull)
  rw [hcodes] at hr
  exact absurd hr.2 List.not_mem_nil

/-- A live text is one of those that are counted, and its tokens too. -/
theorem Ok.counted_text (h : c.Ok rows) (ht : c.type = .text) (hi : rows[i]? = some (true, v))
    (hv : v.isNull = false) : 0 < c.liveDocCount ∧ tokenCount v ≤ c.totalDocLen := by
  have hmem := List.mem_of_getElem? hi
  refine ⟨?_, ?_⟩
  · rw [h.docCount ht]
    exact List.countP_pos_iff.2 ⟨_, hmem, by rw [hv]; rfl⟩
  · rw [h.docLen ht]
    exact List.single_le_sum (fun _ _ => Nat.zero_le _) _
      (List.mem_map.2 ⟨_, hmem, if_pos rfl⟩)

end Column

namespace MetadataStore

variable {ι : Type} {s : MetadataStore ι} {attr : ℕ} {rows : List ColRow} {query query' : Bytes}
  {codes codes' : List ℕ} {x y i : InternalId} {deleted : List Bool}
  {allowlist : Option (List InternalId)}

/-- The tokens of a row. -/
def tokensOf (s : MetadataStore ι) (attr : ℕ) (i : InternalId) : List Bytes :=
  tokenizeText (s.get i attr).text

/-- What a term of the query adds to the score of a row. -/
noncomputable def exactTerm (s : MetadataStore ι) (k1 b : ℝ) (attr : ℕ) (i : InternalId)
    (code : ℕ) : ℝ :=
  let c := s.column attr
  termScore k1 (lengthNorm k1 b (avgDocLen c.liveDocCount c.totalDocLen) (c.docLen.getD i 0))
    (idf c.liveDocCount (s.count attr code))
    ((tokenizeText (c.rawText.getD i [])).count (c.dict.getD code []) % 2 ^ 32)

/-- A term that the row does not have adds nothing. -/
theorem scoreOf_exact (k1 b : ℝ) (codes : List ℕ) (i : InternalId) :
    s.scoreOf (Bm25.exact k1 b) attr codes i = (codes.map (s.exactTerm k1 b attr i)).sum := by
  unfold scoreOf Bm25.exact
  dsimp only
  induction codes with
  | nil => rfl
  | cons code codes ih =>
    rw [List.filterMap_cons, List.map_cons, List.sum_cons, ← ih]
    split_ifs with hzero
    · rw [exactTerm, hzero, Nat.zero_mod, termScore_zero, zero_add]
    · rw [List.map_cons, List.sum_cons]
      rfl

/-- Codes of the same terms, in any order. -/
theorem scoreOf_perm {k1 b : ℝ} (h : codes.Perm codes') (i : InternalId) :
    s.scoreOf (Bm25.exact k1 b) attr codes i = s.scoreOf (Bm25.exact k1 b) attr codes' i := by
  rw [scoreOf_exact, scoreOf_exact]
  exact (h.map _).sum_eq

/-- **Query strings** with the same tokens have the same terms. -/
theorem termCodes_perm (codes : Bytes → Option ℕ)
    (h : ∀ tok, tok ∈ tokenizeText query ↔ tok ∈ tokenizeText query') :
    (termCodes codes query).Perm (termCodes codes query') := by
  refine (List.perm_ext_iff_of_nodup (Column.nodup_termCodes codes query)
    (Column.nodup_termCodes codes query')).2 fun code => ?_
  rw [Column.mem_termCodes, Column.mem_termCodes]
  exact exists_congr fun tok => and_congr_left' (h tok)

/-- A live row of a column of texts that has a text. -/
structure HasText (s : MetadataStore ι) (attr : ℕ) (rows : List ColRow) (i : InternalId) :
    Prop where
  live : ∃ v, rows[i]? = some (true, v)
  present : (s.column attr).isPresent i = true

theorem text_get (hp : (s.column attr).isPresent i = true) (ht : (s.column attr).type = .text) :
    (s.get i attr).text = (s.column attr).rawText.getD i [] := by
  unfold MetadataStore.get Column.get
  rw [if_neg (not_not.2 hp), ht, if_neg (by decide), if_pos rfl]
  rfl

theorem text_of_stores {i : InternalId} {b : Bool} {v : AttrValue}
    (hok : (s.column attr).Ok rows) (ht : (s.column attr).type = .text)
    (hi : rows[i]? = some (b, v)) (hv : v.isNull = false) : (s.get i attr).text = v.text :=
  (text_get ((hok.stores_at hi).isPresent_iff.2 hv) ht).trans ((hok.stores_at hi).text ht).1

/-- A row with a token of the query. -/
theorem shares_of_mem {i : InternalId} {b : Bool} {v : AttrValue} {tok : Bytes}
    (hok : (s.column attr).Ok rows) (ht : (s.column attr).type = .text)
    (hi : rows[i]? = some (b, v)) (hv : v.isNull = false) (hquery : tok ∈ tokenizeText query)
    (htok : tok ∈ tokenizeText v.text) : s.shares attr query i = true := by
  have hstores := hok.stores_at hi
  have hnull : (s.get i attr).isNull = false := by
    rw [← AttrValue.isNull_carried]
    exact (congrArg AttrValue.isNull (hstores.get hok.dict)).trans hv
  unfold shares
  rw [hnull, text_of_stores hok ht hi hv, Bool.not_false, Bool.true_and, List.any_eq_true]
  exact ⟨tok, hquery, decide_eq_true htok⟩

/-- What the arrays say of a text. -/
theorem HasText.stored (h : s.HasText attr rows i) (hok : (s.column attr).Ok rows)
    (ht : (s.column attr).type = .text) : ∃ v, rows[i]? = some (true, v) ∧ v.isNull = false ∧
      s.tokensOf attr i = tokenizeText v.text ∧
      tokenizeText ((s.column attr).rawText.getD i []) = s.tokensOf attr i ∧
      (s.column attr).docLen.getD i 0 = (s.tokensOf attr i).length % 2 ^ 32 ∧
      tokenCount v = (s.tokensOf attr i).length % 2 ^ 32 ∧
      ∀ tok ∈ s.tokensOf attr i, ((s.column attr).codes tok).isSome := by
  obtain ⟨v, hv⟩ := h.live
  have hstores := hok.stores_at hv
  obtain ⟨hraw, -, hlen, hknows⟩ := hstores.text ht
  have hraw' : (s.column attr).rawText.getD i [] = v.text := hraw
  have htokens : s.tokensOf attr i = tokenizeText v.text := by
    rw [tokensOf, text_get h.present ht, hraw']
  refine ⟨v, hv, hstores.isPresent_iff.1 h.present, htokens, ?_, ?_, ?_, ?_⟩
  · rw [htokens, hraw']
  · rw [htokens]
    exact hlen
  · rw [htokens]
    rfl
  · rw [htokens]
    exact hknows

/-- What a term adds to a text that is not too long to be counted. -/
theorem HasText.exactTerm {k1 b : ℝ} (h : s.HasText attr rows i) (hok : (s.column attr).Ok rows)
    (ht : (s.column attr).type = .text) (hshort : (s.tokensOf attr i).length < 2 ^ 32) (code : ℕ) :
    s.exactTerm k1 b attr i code =
      termScore k1 (lengthNorm k1 b
          (avgDocLen (s.column attr).liveDocCount (s.column attr).totalDocLen)
          (s.tokensOf attr i).length)
        (idf (s.column attr).liveDocCount (s.count attr code))
        ((s.tokensOf attr i).count ((s.column attr).dict.getD code [])) := by
  obtain ⟨v, -, -, -, htokens, hdoc, -, -⟩ := h.stored hok ht
  unfold MetadataStore.exactTerm
  dsimp only
  rw [htokens, hdoc, Nat.mod_eq_of_lt hshort,
    Nat.mod_eq_of_lt (List.count_le_length.trans_lt hshort)]

/-- A code of the query is that of one of its tokens. -/
theorem exists_token (hd : (s.column attr).Dict) {code : ℕ}
    (h : code ∈ termCodes (s.column attr).codes query) :
    ∃ tok ∈ tokenizeText query, (s.column attr).dict.getD code [] = tok := by
  obtain ⟨tok, htok, hcode⟩ := Column.mem_termCodes.1 h
  refine ⟨tok, htok, ?_⟩
  rw [List.getD_eq_getElem?_getD, (hd.codes tok code).1 hcode, Option.getD_some]

section Exact

variable {k1 b : ℝ} (hok : (s.column attr).Ok rows) (ht : (s.column attr).type = .text)
  (hk1 : 0 < k1) (hb0 : 0 ≤ b) (hb1 : b ≤ 1)
  (hx : s.HasText attr rows x) (hy : s.HasText attr rows y)
  (hlen : (s.tokensOf attr x).length = (s.tokensOf attr y).length)
  (hshort : (s.tokensOf attr x).length < 2 ^ 32)
  (hmore : ∀ tok ∈ tokenizeText query, (s.tokensOf attr y).count tok ≤
    (s.tokensOf attr x).count tok)
include hok ht hk1 hb0 hb1 hx hy hlen hshort hmore

/-- Term by term the row with more of the terms gets more. -/
theorem exactTerm_le {code : ℕ} (hcode : code ∈ termCodes (s.column attr).codes query) :
    s.exactTerm k1 b attr y code ≤ s.exactTerm k1 b attr x code ∧
      ((s.tokensOf attr y).count ((s.column attr).dict.getD code []) <
          (s.tokensOf attr x).count ((s.column attr).dict.getD code []) →
        s.exactTerm k1 b attr y code < s.exactTerm k1 b attr x code) := by
  obtain ⟨v, hv, hnull, -, -, -, hcount, -⟩ := hx.stored hok ht
  obtain ⟨tok, htok, hstring⟩ := exists_token hok.dict hcode
  have hidf : 0 < idf (s.column attr).liveDocCount (s.count attr code) :=
    idf_pos (hok.count_le ht code)
  rw [hx.exactTerm hok ht hshort, hy.exactTerm hok ht (hlen ▸ hshort), ← hlen, hstring]
  refine ⟨termScore_le hk1 (lengthNorm_nonneg hk1.le hb0 hb1) hidf.le (hmore tok htok),
    fun hlt => termScore_lt hk1 (lengthNorm_pos hk1 hb0 hb1 ?_ ?_) hidf hlt⟩
  · obtain ⟨hlive, htotal⟩ := hok.counted_text ht hv hnull
    refine avgDocLen_pos hlive (lt_of_lt_of_le ?_ htotal)
    rw [hcount, Nat.mod_eq_of_lt hshort]
    exact (Nat.zero_le _).trans_lt (hlt.trans_le List.count_le_length)
  · exact (Nat.zero_le _).trans_lt (hlt.trans_le List.count_le_length)

/-- **More of the terms of the query**, among as many tokens. -/
theorem scoreOf_le : s.scoreOf (Bm25.exact k1 b) attr (termCodes (s.column attr).codes query) y ≤
    s.scoreOf (Bm25.exact k1 b) attr (termCodes (s.column attr).codes query) x := by
  rw [scoreOf_exact, scoreOf_exact]
  exact List.sum_le_sum fun code hcode =>
    (exactTerm_le hok ht hk1 hb0 hb1 hx hy hlen hshort hmore hcode).1

theorem scoreOf_lt (hstrict : ∃ tok ∈ tokenizeText query,
      (s.tokensOf attr y).count tok < (s.tokensOf attr x).count tok) :
    s.scoreOf (Bm25.exact k1 b) attr (termCodes (s.column attr).codes query) y <
      s.scoreOf (Bm25.exact k1 b) attr (termCodes (s.column attr).codes query) x := by
  obtain ⟨tok, htok, hlt⟩ := hstrict
  obtain ⟨v, -, -, -, -, -, -, hknows⟩ := hx.stored hok ht
  -- the token is in the text, and so it has a code
  have hmem : tok ∈ s.tokensOf attr x :=
    List.count_pos_iff.1 ((Nat.zero_le _).trans_lt hlt)
  obtain ⟨code, hcode⟩ := Option.isSome_iff_exists.1 (hknows tok hmem)
  have hstring : (s.column attr).dict.getD code [] = tok := by
    rw [List.getD_eq_getElem?_getD, (hok.dict.codes tok code).1 hcode, Option.getD_some]
  rw [scoreOf_exact, scoreOf_exact]
  refine List.sum_lt_sum _ _ (fun code hcode =>
    (exactTerm_le hok ht hk1 hb0 hb1 hx hy hlen hshort hmore hcode).1)
    ⟨code, Column.mem_termCodes.2 ⟨tok, htok, hcode⟩, ?_⟩
  exact (exactTerm_le hok ht hk1 hb0 hb1 hx hy hlen hshort hmore
    (Column.mem_termCodes.2 ⟨tok, htok, hcode⟩)).2 (by rwa [hstring])

end Exact

/-- Two texts of one word and `2 ^ 32` tokens, one of them with another word in it. -/
theorem scoreOf_wraps {n : ℕ} (hn : n + 1 = 2 ^ 32) {k1 b : ℝ} (hk1 : 0 < k1) (hb0 : 0 ≤ b)
    (hb1 : b < 1) {first second : Bytes}
    (hok : (s.column attr).Ok [(true, attrText first), (true, attrText second)])
    (ht : (s.column attr).type = .text) {word other : Bytes} (hne : word ≠ other)
    (hquery : tokenizeText query = [word])
    (hx : tokenizeText first = other :: List.replicate n word)
    (hy : tokenizeText second = List.replicate (n + 1) word) :
    s.scoreOf (Bm25.exact k1 b) attr (termCodes (s.column attr).codes query) 1 <
      s.scoreOf (Bm25.exact k1 b) attr (termCodes (s.column attr).codes query) 0 := by
  have hcolumn₀ := hok.stores_at (i := 0) rfl
  have hcolumn₁ := hok.stores_at (i := 1) rfl
  have hraw₀ : (s.column attr).rawText.getD 0 [] = first := (hcolumn₀.text ht).1
  have hraw₁ : (s.column attr).rawText.getD 1 [] = second := (hcolumn₁.text ht).1
  -- the word is in the first text, and so it has a code
  have hmem : word ∈ tokenizeText first := by
    rw [hx]
    exact List.mem_cons_of_mem _ (List.mem_replicate.2 ⟨by omega, rfl⟩)
  obtain ⟨code, hcode⟩ := Option.isSome_iff_exists.1 ((hcolumn₀.text ht).2.2.2 word hmem)
  have hcodes : termCodes (s.column attr).codes query = [code] := by
    rw [termCodes, hquery, List.foldl_cons, seeToken, hcode]
    rfl
  have hstring : (s.column attr).dict.getD code [] = word := by
    rw [List.getD_eq_getElem?_getD, (hok.dict.codes word code).1 hcode, Option.getD_some]
  have hcount₀ : (tokenizeText first).count word % 2 ^ 32 = n := by
    rw [hx, List.count_cons_of_ne hne.symm, List.count_replicate_self]
    exact Nat.mod_eq_of_lt (by omega)
  have hcount₁ : (tokenizeText second).count word % 2 ^ 32 = 0 := by
    rw [hy, List.count_replicate_self, hn, Nat.mod_self]
  rw [scoreOf_exact, scoreOf_exact, hcodes, List.map_singleton, List.map_singleton,
    List.sum_singleton, List.sum_singleton, exactTerm, exactTerm, hraw₀, hraw₁, hstring, hcount₀,
    hcount₁, termScore_zero, ← termScore_zero k1]
  -- the first text has the word, and the second one is taken to have none of it
  exact termScore_lt hk1 (lengthNorm_pos_of_lt hk1 hb0 hb1) (idf_pos (hok.count_le ht code))
    (by omega)

end MetadataStore

end Metadata

end Vdb
