import Vdb.Metadata.Serialize
import Vdb.Lib.Runs

/-!
# The tokens of a text

* `tokenizeText_eq_runs` : the tokens are the maximal runs of alphanumeric bytes, in lower case.
* `internTerms_again` : a text that is interned a second time gets the same codes, also against a
  dictionary that has been written and read back.
-/

namespace Vdb

namespace Metadata

/-! ### Bytes -/

theorem isAlnum_toLower {ch : UInt8} (h : isAlnum ch = true) : isAlnum (toLower ch) = true := by
  have hall : ∀ b : BitVec 8, isAlnum ⟨b⟩ = true → isAlnum (toLower ⟨b⟩) = true := by
    decide +kernel
  exact hall ch.toBitVec h

theorem toLower_toLower (ch : UInt8) : toLower (toLower ch) = toLower ch := by
  have hall : ∀ b : BitVec 8, toLower (toLower ⟨b⟩) = toLower ⟨b⟩ := by
    decide +kernel
  exact hall ch.toBitVec

/-! ### Runs -/

/-- Alphanumeric bytes are added to the current token. -/
theorem foldl_tokenizeByte {w : Bytes} (h : ∀ ch ∈ w, isAlnum ch = true) (out : List Bytes)
    (cur : Bytes) : w.foldl tokenizeByte (out, cur) = (out, cur ++ w.map toLower) := by
  induction w generalizing cur with
  | nil => rw [List.foldl_nil, List.map_nil, List.append_nil]
  | cons ch w ih =>
    have hstep : tokenizeByte (out, cur) ch = (out, cur ++ [toLower ch]) :=
      if_pos (h ch List.mem_cons_self)
    rw [List.foldl_cons, hstep, ih fun b hb => h b (List.mem_cons_of_mem ch hb), List.map_cons,
      List.append_assoc, List.singleton_append]

theorem flushToken_eq {w : Bytes} (h : ∀ ch ∈ w, isAlnum ch = true) (out : List Bytes) :
    flushToken out (w.map toLower) = out ++ (Runs.runs isAlnum w).map (List.map toLower) := by
  by_cases hne : w = []
  · rw [hne]
    exact (List.append_nil out).symm
  · rw [Runs.runs_of_forall hne h, flushToken, if_neg (by simpa using hne)]
    rfl

/-- The scan with the tokens `out` behind it and no current one. -/
theorem flush_foldl_tokenizeByte (s : Bytes) (out : List Bytes) :
    flushToken (s.foldl tokenizeByte (out, [])).1 (s.foldl tokenizeByte (out, [])).2 =
      out ++ (Runs.runs isAlnum s).map (List.map toLower) := by
  induction s using Runs.split_induction isAlnum generalizing out with
  | all w hw => rw [foldl_tokenizeByte hw, List.nil_append, flushToken_eq hw]
  | sep w ch t hw hch ih =>
    -- the separator completes the token that the run has built
    have hstep : tokenizeByte (out, w.map toLower) ch = (flushToken out (w.map toLower), []) :=
      if_neg (by rw [hch]; exact Bool.false_ne_true)
    rw [List.foldl_append, foldl_tokenizeByte hw, List.nil_append, List.foldl_cons, hstep, ih,
      flushToken_eq hw, Runs.runs_append_cons hch, List.map_append, List.append_assoc]

/-- **The tokens** are the runs of alphanumeric bytes, in lower case. -/
theorem tokenizeText_eq_runs (s : Bytes) :
    tokenizeText s = (Runs.runs isAlnum s).map (List.map toLower) :=
  flush_foldl_tokenizeByte s []

/-- Every token is in lower case already. -/
theorem map_toLower_tokenizeText (s : Bytes) :
    (tokenizeText s).map (List.map toLower) = tokenizeText s := by
  rw [tokenizeText_eq_runs, List.map_map]
  refine List.map_congr_left fun w _ => ?_
  rw [Function.comp_apply, List.map_map]
  exact List.map_congr_left fun ch _ => toLower_toLower ch

/-- A token is not empty, and has alphanumeric bytes only. -/
theorem forall_mem_tokenizeText (s : Bytes) :
    ∀ w ∈ tokenizeText s, w ≠ [] ∧ ∀ ch ∈ w, isAlnum ch = true := by
  intro w hw
  rw [tokenizeText_eq_runs] at hw
  obtain ⟨v, hv, rfl⟩ := List.mem_map.1 hw
  obtain ⟨hne, hall⟩ := Runs.forall_mem_runs isAlnum s v hv
  refine ⟨by simpa using hne, fun ch hch => ?_⟩
  obtain ⟨b, hb, rfl⟩ := List.mem_map.1 hch
  exact isAlnum_toLower (hall b hb)

theorem tokenizeText_append_sep (s t : Bytes) {sep : Bytes} (hne : sep ≠ [])
    (hsep : ∀ ch ∈ sep, isAlnum ch = false) :
    tokenizeText (s ++ sep ++ t) = tokenizeText s ++ tokenizeText t := by
  rw [tokenizeText_eq_runs, tokenizeText_eq_runs, tokenizeText_eq_runs,
    Runs.runs_append_sep hne hsep, List.map_append]

theorem tokenizeText_intercalate (s : Bytes) :
    tokenizeText ((ascii " ").intercalate (tokenizeText s)) = tokenizeText s := by
  have hjoin := Runs.runs_intercalate (a := 32) (by decide) (forall_mem_tokenizeText s)
  rw [tokenizeText_eq_runs, show ascii " " = [32] from rfl, hjoin, map_toLower_tokenizeText]

/-! ### Codes -/

namespace Column

variable {ι : Type} {c c' loaded : Column ι} {str : Bytes} {k : ℕ}

/-- The codes are those the dictionary gives when it is read. -/
def Numbered (c : Column ι) : Prop := c.codes = codesOfDict c.dict

theorem codesOfDict_concat (dict : List Bytes) (str : Bytes) : codesOfDict (dict ++ [str]) =
    if (codesOfDict dict str).isSome then codesOfDict dict
    else Function.update (codesOfDict dict) str (some (dict.length % 2 ^ 32)) := by
  unfold codesOfDict
  rw [List.zipIdx_append, List.foldl_append]
  simp only [List.zipIdx_cons, List.zipIdx_nil, List.foldl_cons, List.foldl_nil, Nat.zero_add]

theorem Numbered.intern (h : c.Numbered) (str : Bytes) : (c.intern str).1.Numbered := by
  unfold Column.intern
  cases hs : c.codes str with
  | some code => exact h
  | none =>
    show Function.update c.codes str (some (c.dict.length % 2 ^ 32)) = codesOfDict (c.dict ++ [str])
    rw [codesOfDict_concat, ← h, hs]
    rfl

theorem Numbered.internTerms (h : c.Numbered) (text : Bytes) :
    (c.internTerms text).1.Numbered := by
  have hfold : ∀ (toks : List Bytes) (p : Column ι × List ℕ), p.1.Numbered →
      (toks.foldl internToken p).1.Numbered := by
    intro toks
    induction toks with
    | nil => exact fun _ h => h
    | cons tok toks ih => exact fun p hp => ih (internToken p tok) (hp.intern tok)
  exact hfold (tokenizeText text) (c, []) h

/-- The string has a code, and the others keep theirs. -/
theorem codes_intern (c : Column ι) (str : Bytes) :
    (c.intern str).1.codes str = some (c.intern str).2 ∧
      ∀ s k, c.codes s = some k → (c.intern str).1.codes s = some k := by
  unfold Column.intern
  cases hs : c.codes str with
  | some code => exact ⟨hs, fun _ _ h => h⟩
  | none =>
    refine ⟨Function.update_self .., fun s k hk => ?_⟩
    have hne : s ≠ str := by
      rintro rfl
      rw [hs] at hk
      cases hk
    exact (Function.update_of_ne hne ..).trans hk

theorem codes_foldl_internToken (toks : List Bytes) (p : Column ι × List ℕ) :
    (∀ s k, p.1.codes s = some k → (toks.foldl internToken p).1.codes s = some k) ∧
      (∀ tok ∈ toks, ((toks.foldl internToken p).1.codes tok).isSome) ∧
      (toks.foldl internToken p).2 =
        toks.foldl (seeToken (toks.foldl internToken p).1.codes) p.2 := by
  induction toks generalizing p with
  | nil => exact ⟨fun _ _ h => h, nofun, rfl⟩
  | cons tok toks ih =>
    obtain ⟨hself, hkeep⟩ := codes_intern p.1 tok
    obtain ⟨hold, hknow, hcodes⟩ := ih (internToken p tok)
    rw [List.foldl_cons]
    have htok := hold tok _ hself
    refine ⟨fun s k h => hold s k (hkeep s k h), fun t ht => ?_, ?_⟩
    · rcases List.mem_cons.1 ht with rfl | ht
      · rw [htok]
        rfl
      · exact hknow t ht
    · have hsee : (internToken p tok).2 =
          seeToken (toks.foldl internToken (internToken p tok)).1.codes p.2 tok := by
        rw [seeToken, htok]
        rfl
      rw [List.foldl_cons, ← hsee]
      exact hcodes

/-- A text is known once it is interned, and its codes are those of its tokens. -/
theorem codes_internTerms (c : Column ι) (text : Bytes) :
    (∀ s k, c.codes s = some k → (c.internTerms text).1.codes s = some k) ∧
      (c.internTerms text).1.Knows text ∧
      (c.internTerms text).2 =
        (termCodes (c.internTerms text).1.codes text, (tokenizeText text).length % 2 ^ 32) := by
  obtain ⟨hold, hknow, hcodes⟩ := codes_foldl_internToken (tokenizeText text) (c, [])
  exact ⟨hold, hknow, Prod.ext hcodes rfl⟩

/-- The column after some texts. -/
def internTexts (c : Column ι) (texts : List Bytes) : Column ι :=
  texts.foldl (fun c text => (c.internTerms text).1) c

theorem Numbered.internTexts (h : c.Numbered) (texts : List Bytes) :
    (c.internTexts texts).Numbered := by
  induction texts generalizing c with
  | nil => exact h
  | cons text texts ih => exact ih (h.internTerms text)

theorem codes_internTexts {texts : List Bytes} (h : c.codes str = some k) :
    (c.internTexts texts).codes str = some k := by
  induction texts generalizing c with
  | nil => exact h
  | cons text texts ih => exact ih ((codes_internTerms c text).1 str k h)

/-- **A text interned again**, after other texts and from the dictionary that was written: the
codes are the same, and nothing is added. -/
theorem internTerms_again (h : c.Numbered) (text : Bytes) (after : List Bytes)
    (hdict : loaded.dict = ((c.internTerms text).1.internTexts after).dict)
    (hloaded : loaded.Numbered) :
    loaded.internTerms text = (loaded, (c.internTerms text).2) := by
  obtain ⟨-, hknow, hcodes⟩ := codes_internTerms c text
  have heq : loaded.codes = ((c.internTerms text).1.internTexts after).codes := by
    rw [hloaded, hdict]
    exact ((h.internTerms text).internTexts after).symm
  have hsame : ∀ tok ∈ tokenizeText text,
      loaded.codes tok = (c.internTerms text).1.codes tok := by
    intro tok htok
    obtain ⟨k, hk⟩ := Option.isSome_iff_exists.1 (hknow tok htok)
    rw [heq, hk]
    exact codes_internTexts hk
  have hknow' : loaded.Knows text := by
    intro tok htok
    rw [hsame tok htok]
    exact hknow tok htok
  rw [hknow'.internTerms, hcodes]
  exact Prod.ext rfl (Prod.ext (foldl_seeToken_congr hsame []) rfl)

end Column

/-! ### All together -/

/-- **Tokens and their codes**: `tokenize_text` finds all maximal runs, in order and in lower case;
so separators only keep tokens apart, joined tokens are found again, and a stored text has the same
codes when its dictionary is read back. -/
theorem tokenizeText_runs (ι : Type) :
    (∀ s : Bytes, ∃ spans, Runs.Spans isAlnum s spans ∧
      tokenizeText s = spans.map fun x => (s.extract x.1 x.2).map toLower) ∧
    (∀ s sep t : Bytes, sep ≠ [] → (∀ ch ∈ sep, isAlnum ch = false) →
      tokenizeText (s ++ sep ++ t) = tokenizeText s ++ tokenizeText t) ∧
    (∀ s : Bytes, tokenizeText ((ascii " ").intercalate (tokenizeText s)) = tokenizeText s) ∧
    (∀ (c loaded : Column ι) (before after : List Bytes) (text : Bytes),
      c.codes = Column.codesOfDict c.dict →
      let stored := (c.internTexts before).internTerms text
      loaded.dict = (stored.1.internTexts after).dict →
      loaded.codes = Column.codesOfDict loaded.dict →
      loaded.internTerms text = (loaded, stored.2)) := by
  refine ⟨fun s => ?_, fun s sep t hne hsep => tokenizeText_append_sep s t hne hsep,
    tokenizeText_intercalate, fun c loaded before after text hc => ?_⟩
  · obtain ⟨spans, hspans, heq⟩ := Runs.exists_spans isAlnum s
    refine ⟨spans, hspans, ?_⟩
    rw [tokenizeText_eq_runs, heq, List.map_map]
    rfl
  · intro stored hdict hloaded
    exact Column.internTerms_again (Column.Numbered.internTexts hc before) text after hdict hloaded

/-- A Text column with two texts. -/
def twoTexts : Column Unit :=
  Column.internTexts { type := .text } [ascii "Red fox", ascii "a FOX, a den"]

/-- Two texts around a separator, and the first of them interned again. -/
theorem tokenizeText_runs_fox :
    tokenizeText (ascii "Red fox" ++ ascii ", " ++ ascii "a FOX") =
      tokenizeText (ascii "Red fox") ++ tokenizeText (ascii "a FOX") ∧
    twoTexts.internTerms (ascii "Red fox") = (twoTexts, [0, 1], 2) :=
  ⟨(tokenizeText_runs Unit).2.1 _ (ascii ", ") _ (by decide) (by decide +kernel),
    (tokenizeText_runs Unit).2.2.2 { type := .text } twoTexts [] [ascii "a FOX, a den"]
      (ascii "Red fox") rfl rfl
      (Column.Numbered.internTexts (c := { type := .text }) rfl _)⟩

end Metadata

end Vdb
