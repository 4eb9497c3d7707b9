import Vdb.Metadata.Store
import Vdb.Lib.Tally
import Mathlib.Data.List.GetD
import Mathlib.Data.List.Nodup

/-!
# Interning strings

`Column.Dict` says that the dictionary of a column and its `codes` are inverse to each other and
that the counts and postings have one entry for every code; `Column.Grows` that a column differs
from another by new codes only.  Interning keeps the first and gives the second, as long as the
dictionary stays within the `2 ^ 32` strings a code can number.
-/

namespace Vdb

namespace Metadata

/-- One round over the tokens of a text that are all in the dictionary. -/
def seeToken (codes : Bytes → Option ℕ) (seen : List ℕ) (tok : Bytes) : List ℕ :=
  match codes tok with
  | some k => if k ∈ seen then seen else seen ++ [k]
  | none => seen

/-- The codes of the terms of a text, each once, in the order of the first tokens. -/
def termCodes (codes : Bytes → Option ℕ) (text : Bytes) : List ℕ :=
  (tokenizeText text).foldl (seeToken codes) []

namespace Column

variable {ι : Type} {c c' c'' : Column ι} {s : Bytes}

/-- How many codes the counts and the postings have entries for. -/
def width (c : Column ι) : ℕ := if c.type = .bool then 2 else c.dict.length

structure Dict (c : Column ι) : Prop where
  codes : ∀ s k, c.codes s = some k ↔ c.dict[k]? = some s
  count : c.count.length = c.width
  postings : c.postings.length = c.width
  small : c.dict.length ≤ 2 ^ 32
  /-- Only strings are interned. -/
  strings : ¬ (c.type = .tag ∨ c.type = .text) → c.dict = []

/-- `c'` is `c` with new strings in its dictionary, which nothing is counted or posted under. -/
structure Grows (c c' : Column ι) : Prop where
  rest : c' = { c with dict := c'.dict, codes := c'.codes, count := c'.count,
                       postings := c'.postings }
  codes : ∀ s k, c.codes s = some k → c'.codes s = some k
  dict : c.dict.length ≤ c'.dict.length
  count : ∀ k, c'.count.getD k 0 = c.count.getD k 0
  postings : ∀ k, c'.postings.getD k [] = c.postings.getD k []

theorem Grows.refl (c : Column ι) : c.Grows c :=
  ⟨rfl, fun _ _ h => h, le_rfl, fun _ => rfl, fun _ => rfl⟩

theorem Grows.type (h : c.Grows c') : c'.type = c.type := by
  rw [h.rest]

theorem Grows.trans (h : c.Grows c') (h' : c'.Grows c'') : c.Grows c'' where
  rest := by
    have := h'.rest
    rw [h.rest] at this
    exact this
  codes s k hs := h'.codes s k (h.codes s k hs)
  dict := h.dict.trans h'.dict
  count k := (h'.count k).trans (h.count k)
  postings k := (h'.postings k).trans (h.postings k)

theorem Dict.lt (h : c.Dict) {k : ℕ} (hs : c.codes s = some k) : k < c.dict.length := by
  rw [h.codes] at hs
  exact (List.getElem?_eq_some_iff.1 hs).1

theorem Dict.lt_pow (h : c.Dict) {k : ℕ} (hs : c.codes s = some k) : k < 2 ^ 32 :=
  (h.lt hs).trans_le h.small

/-- Interning leaves the rows alone. -/
theorem rest_intern (c : Column ι) (s : Bytes) : (c.intern s).1 =
    { c with dict := (c.intern s).1.dict, codes := (c.intern s).1.codes,
             count := (c.intern s).1.count, postings := (c.intern s).1.postings } := by
  unfold intern
  split <;> rfl

theorem rest_foldl_internToken (toks : List Bytes) (p : Column ι × List ℕ) :
    (toks.foldl internToken p).1 =
      { p.1 with dict := (toks.foldl internToken p).1.dict,
                 codes := (toks.foldl internToken p).1.codes,
                 count := (toks.foldl internToken p).1.count,
                 postings := (toks.foldl internToken p).1.postings } := by
  induction toks generalizing p with
  | nil => rfl
  | cons tok toks ih =>
    have hstep : (internToken p tok).1 = (p.1.intern tok).1 := rfl
    have h := ih (internToken p tok)
    rw [hstep, rest_intern] at h
    exact h

theorem rest_internTerms (c : Column ι) (text : Bytes) : (c.internTerms text).1 =
    { c with dict := (c.internTerms text).1.dict, codes := (c.internTerms text).1.codes,
             count := (c.internTerms text).1.count,
             postings := (c.internTerms text).1.postings } :=
  rest_foldl_internToken (tokenizeText text) (c, [])

theorem type_intern (c : Column ι) (s : Bytes) : (c.intern s).1.type = c.type := by
  rw [rest_intern]

theorem type_internTerms (c : Column ι) (text : Bytes) :
    (c.internTerms text).1.type = c.type := by
  rw [rest_internTerms]

theorem length_dict_intern (c : Column ι) (s : Bytes) :
    c.dict.length ≤ (c.intern s).1.dict.length := by
  unfold intern
  split <;> simp

/-- Interning gives the code of the string, new or not. -/
theorem Dict.intern (h : c.Dict) (ht : c.type = .tag ∨ c.type = .text)
    (hfit : (c.intern s).1.dict.length ≤ 2 ^ 32) :
    (c.intern s).1.Dict ∧ c.Grows (c.intern s).1 ∧
      (c.intern s).1.codes s = some (c.intern s).2 := by
  unfold Column.intern at hfit ⊢
  cases hs : c.codes s with
  | some code => exact ⟨h, .refl c, hs⟩
  | none =>
    simp only [hs, List.length_append, List.length_singleton] at hfit ⊢
    have hcode : c.dict.length % 2 ^ 32 = c.dict.length := Nat.mod_eq_of_lt (by omega)
    have hbool : c.type ≠ .bool := by
      rcases ht with ht | ht <;> rw [ht] <;> decide
    have hw : c.width = c.dict.length := if_neg hbool
    have hcount : c.count.length = c.dict.length := h.count.trans hw
    have hpost : c.postings.length = c.dict.length := h.postings.trans hw
    rw [hcode]
    refine ⟨⟨fun t k => ?_, ?_, ?_, ?_, ?_⟩,
      ⟨rfl, fun t k hk => ?_, ?_, fun k => ?_, fun k => ?_⟩, ?_⟩
    · dsimp only
      rw [Function.update_apply, Tally.getElem?_concat_iff]
      split_ifs with heq
      · -- the new string has no older code
        subst heq
        have hnone : c.dict[k]? ≠ some t := fun hk => by
          rw [(h.codes t k).2 hk] at hs
          cases hs
        simp [hnone, eq_comm]
      · rw [h.codes]
        simp [heq]
    · simp [width, hbool, hcount]
    · simp [width, hbool, hpost]
    · simpa using hfit
    · exact fun hn => absurd ht hn
    · have hne : t ≠ s := by
        rintro rfl
        rw [hs] at hk
        cases hk
      exact (Function.update_of_ne hne ..).trans hk
    · simp
    · exact Tally.getD_concat_default c.count 0 k
    · exact Tally.getD_concat_default c.postings [] k
    · exact Function.update_self ..

/-! ### Terms -/

theorem nodup_foldl_seeToken {codes : Bytes → Option ℕ} {toks : List Bytes} {seen : List ℕ}
    (h : seen.Nodup) : (toks.foldl (seeToken codes) seen).Nodup := by
  induction toks generalizing seen with
  | nil => exact h
  | cons tok toks ih =>
    apply ih
    unfold seeToken
    split
    · split_ifs with hk
      · exact h
      · exact List.nodup_append.2 ⟨h, List.nodup_singleton _, fun a ha b hb => by
          rintro rfl
          exact hk (List.mem_singleton.1 hb ▸ ha)⟩
    · exact h

theorem nodup_termCodes (codes : Bytes → Option ℕ) (text : Bytes) : (termCodes codes text).Nodup :=
  nodup_foldl_seeToken List.nodup_nil

theorem mem_seeToken {codes : Bytes → Option ℕ} {seen : List ℕ} {tok : Bytes} {k : ℕ} :
    k ∈ seeToken codes seen tok ↔ k ∈ seen ∨ codes tok = some k := by
  unfold seeToken
  split
  · rename_i j hj
    rw [hj, Option.some.injEq]
    split_ifs with hm
    · exact ⟨.inl, fun h => h.elim id fun h => h ▸ hm⟩
    · rw [List.mem_append, List.mem_singleton, eq_comm]
  · rename_i hn
    simp [hn]

theorem mem_foldl_seeToken {codes : Bytes → Option ℕ} {toks : List Bytes} {seen : List ℕ} {k : ℕ} :
    k ∈ toks.foldl (seeToken codes) seen ↔ k ∈ seen ∨ ∃ tok ∈ toks, codes tok = some k := by
  induction toks generalizing seen with
  | nil => simp
  | cons tok toks ih =>
    rw [List.foldl_cons, ih, mem_seeToken, List.exists_mem_cons_iff, or_assoc]

theorem mem_termCodes {codes : Bytes → Option ℕ} {text : Bytes} {k : ℕ} :
    k ∈ termCodes codes text ↔ ∃ tok ∈ tokenizeText text, codes tok = some k := by
  rw [termCodes, mem_foldl_seeToken]
  simp

theorem foldl_seeToken_congr {codes codes' : Bytes → Option ℕ} {toks : List Bytes}
    (h : ∀ tok ∈ toks, codes' tok = codes tok) (seen : List ℕ) :
    toks.foldl (seeToken codes') seen = toks.foldl (seeToken codes) seen := by
  induction toks generalizing seen with
  | nil => rfl
  | cons tok toks ih =>
    have hsee : seeToken codes' seen tok = seeToken codes seen tok := by
      unfold seeToken
      rw [h tok List.mem_cons_self]
    rw [List.foldl_cons, List.foldl_cons, hsee, ih fun t ht => h t (List.mem_cons_of_mem tok ht)]

/-- Every token of the text is in the dictionary. -/
def Knows (c : Column ι) (text : Bytes) : Prop :=
  ∀ tok ∈ tokenizeText text, (c.codes tok).isSome

/-- A code that is there is kept. -/
theorem Grows.codes_eq (h : c.Grows c') (hs : (c.codes s).isSome) : c'.codes s = c.codes s := by
  obtain ⟨k, hk⟩ := Option.isSome_iff_exists.1 hs
  rw [hk]
  exact h.codes s k hk

theorem Grows.knows {text : Bytes} (h : c.Grows c') (ht : c.Knows text) : c'.Knows text := by
  intro tok htok
  rw [h.codes_eq (ht tok htok)]
  exact ht tok htok

theorem Grows.termCodes_eq {text : Bytes} (h : c.Grows c') (ht : c.Knows text) :
    termCodes c'.codes text = termCodes c.codes text :=
  foldl_seeToken_congr (fun tok htok => h.codes_eq (ht tok htok)) []

theorem length_dict_foldl_internToken (toks : List Bytes) (p : Column ι × List ℕ) :
    p.1.dict.length ≤ (toks.foldl internToken p).1.dict.length := by
  induction toks generalizing p with
  | nil => exact le_rfl
  | cons tok toks ih => exact (length_dict_intern p.1 tok).trans (ih (internToken p tok))

theorem Dict.foldl_internToken {p : Column ι × List ℕ} (h : p.1.Dict)
    (ht : p.1.type = .tag ∨ p.1.type = .text)
    {toks : List Bytes} (hfit : (toks.foldl internToken p).1.dict.length ≤ 2 ^ 32) :
    let r := toks.foldl internToken p
    r.1.Dict ∧ p.1.Grows r.1 ∧ (∀ tok ∈ toks, (r.1.codes tok).isSome) ∧
      r.2 = toks.foldl (seeToken r.1.codes) p.2 := by
  induction toks generalizing p with
  | nil => exact ⟨h, .refl p.1, by simp, rfl⟩
  | cons tok toks ih =>
    intro r
    have hlen := length_dict_foldl_internToken toks (internToken p tok)
    obtain ⟨hd, hg, hcode⟩ := h.intern ht (s := tok) (hlen.trans hfit)
    have ht' : (internToken p tok).1.type = .tag ∨ (internToken p tok).1.type = .text := by
      rw [show (internToken p tok).1 = (p.1.intern tok).1 from rfl, hg.rest]
      exact ht
    obtain ⟨hd', hg', hknow, hcodes⟩ := ih (p := internToken p tok) hd ht' hfit
    have htok : r.1.codes tok = some (p.1.intern tok).2 := hg'.codes _ _ hcode
    refine ⟨hd', hg.trans hg', ?_, ?_⟩
    · intro t hmem
      rcases List.mem_cons.1 hmem with rfl | hmem
      · rw [htok]
        rfl
      · exact hknow t hmem
    · have hsee : (internToken p tok).2 = seeToken r.1.codes p.2 tok := by
        unfold seeToken
        rw [htok]
        rfl
      rw [List.foldl_cons, ← hsee]
      exact hcodes

/-- Interning a text gives its term codes and its number of tokens, and makes its tokens known. -/
theorem Dict.internTerms (h : c.Dict) (ht : c.type = .tag ∨ c.type = .text) {text : Bytes}
    (hfit : (c.internTerms text).1.dict.length ≤ 2 ^ 32) :
    let r := c.internTerms text
    r.1.Dict ∧ c.Grows r.1 ∧ r.1.Knows text ∧
      r.2 = (termCodes r.1.codes text, (tokenizeText text).length % 2 ^ 32) := by
  intro r
  obtain ⟨hd, hg, hknow, hcodes⟩ := Dict.foldl_internToken (p := (c, [])) h ht hfit
  exact ⟨hd, hg, hknow, Prod.ext hcodes rfl⟩

/-- Interning adds at most one string for each token. -/
theorem length_dict_internTerms (c : Column ι) (text : Bytes) :
    (c.internTerms text).1.dict.length ≤ c.dict.length + (tokenizeText text).length := by
  have hone : ∀ (c : Column ι) (s : Bytes), (c.intern s).1.dict.length ≤ c.dict.length + 1 := by
    intro c s
    unfold intern
    split
    · exact Nat.le_succ _
    · simp
  have hfold : ∀ (toks : List Bytes) (p : Column ι × List ℕ),
      (toks.foldl internToken p).1.dict.length ≤ p.1.dict.length + toks.length := by
    intro toks
    induction toks with
    | nil => intro p; exact le_rfl
    | cons tok toks ih =>
      intro p
      have h1 := ih (internToken p tok)
      have h2 : (internToken p tok).1.dict.length ≤ p.1.dict.length + 1 := hone p.1 tok
      rw [List.foldl_cons, List.length_cons]
      omega
  exact hfold (tokenizeText text) (c, [])

end Column

end Metadata

end Vdb
