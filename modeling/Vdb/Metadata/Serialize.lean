import Vdb.Metadata.Edits

/-!
# Reading a column back

`deserialize` reads from the bytes of `serialize` the same column, but for what is derived from
the rows: the counters start at zero and the postings and the index empty (`Column.restored`).  The
terms of a text are not in the bytes; interning it against its own dictionary gives them again.
-/

namespace Vdb

namespace Metadata

open Reader

theorem AttrType.ofByte_toByte (type : AttrType) : AttrType.ofByte type.toByte.toNat = type := by
  cases type <;> rfl

theorem reads_bytes {s : Bytes} (h : s.length < 2 ^ 64) : getBytes.Reads (putBytes s) s := by
  unfold getBytes putBytes getNumber
  exact (reads_nat truncated (w := 8) (by simpa using h)).bind (reads_take truncated rfl)

theorem reads_manyBytes {l : List Bytes} (h : ∀ s ∈ l, s.length < 2 ^ 64) :
    (many getBytes l.length).Reads (l.flatMap putBytes) l := by
  have hread : (many getBytes l.length).Reads (l.flatMap putBytes) (l.map id) :=
    reads_many fun s hs => reads_bytes (h s hs)
  rwa [List.map_id] at hread

namespace Column

variable {ι : Type} {c t : Column ι} {rows : List ColRow}

/-- What a Text, and what another column, keeps of `t` when `c` is read into it. -/
def restored (c t : Column ι) : Column ι :=
  { c with
    liveDocCount := t.liveDocCount, totalDocLen := t.totalDocLen, index := t.index }.sizeDerived

/-- The sizes of the containers are 64-bit numbers. -/
structure SizesFit (c : Column ι) : Prop where
  rows : c.data.length < 2 ^ 64
  dict : ∀ s ∈ c.dict, s.length < 2 ^ 64
  raw : ∀ s ∈ c.rawText, s.length < 2 ^ 64

instance (c : Column ι) : Decidable c.SizesFit :=
  decidable_of_iff (c.data.length < 2 ^ 64 ∧ (∀ s ∈ c.dict, s.length < 2 ^ 64) ∧
      ∀ s ∈ c.rawText, s.length < 2 ^ 64)
    ⟨fun h => ⟨h.1, h.2.1, h.2.2⟩, fun h => ⟨h.rows, h.dict, h.raw⟩⟩

/-- The codes of a dictionary are those it was interned under. -/
theorem Dict.codesOfDict (h : c.Dict) : codesOfDict c.dict = c.codes := by
  have hnodup : c.dict.Nodup := by
    rw [List.nodup_iff_getElem?_ne_getElem?]
    intro i j hij hj heq
    rw [List.getElem?_eq_getElem hj] at heq
    have hi := (h.codes _ _).2 heq
    have hj' := (h.codes _ _).2 (List.getElem?_eq_getElem hj)
    rw [hi] at hj'
    exact hij.ne (Option.some.inj hj')
  -- after the first `k` strings exactly these have codes
  have hfold : ∀ (l : List Bytes) (k : ℕ) (codes : Bytes → Option ℕ), l.Nodup →
      k + l.length ≤ 2 ^ 32 → (∀ s ∈ l, codes s = none) → ∀ s,
      ((l.zipIdx k).foldl (fun codes e => if (codes e.1).isSome then codes
        else Function.update codes e.1 (some (e.2 % 2 ^ 32))) codes) s =
      if s ∈ l then some (k + l.idxOf s) else codes s := by
    intro l
    induction l with
    | nil => simp
    | cons a l ih =>
      intro k codes hn hk hnone s
      obtain ⟨ha, hn⟩ := List.nodup_cons.1 hn
      have hmod : k % 2 ^ 32 = k := Nat.mod_eq_of_lt (by simp at hk; omega)
      rw [List.zipIdx_cons, List.foldl_cons, if_neg (by simp [hnone a]), hmod,
        ih (k + 1) _ hn (by simp at hk; omega)]
      · by_cases hs : s = a
        · subst hs
          simp [ha]
        · by_cases hmem : s ∈ l
          · simp [hmem, hs, List.idxOf_cons_ne l (Ne.symm hs), Nat.add_assoc, Nat.add_comm 1]
          · simp [hmem, hs]
      · intro b hb
        rw [Function.update_of_ne (by rintro rfl; exact ha hb)]
        exact hnone b (List.mem_cons_of_mem a hb)
  funext s
  unfold Column.codesOfDict
  rw [hfold c.dict 0 _ hnodup (by simpa using h.small) (fun _ _ => rfl)]
  split_ifs with hs
  · rw [eq_comm, Nat.zero_add, h.codes]
    exact List.getElem?_idxOf hs
  · cases hc : c.codes s with
    | none => rfl
    | some k => exact absurd (List.mem_of_getElem? ((h.codes s k).1 hc)) hs

/-- Interning a text against a dictionary that knows it changes nothing. -/
theorem Knows.internTerms {text : Bytes} (h : c.Knows text) :
    c.internTerms text = (c, termCodes c.codes text, (tokenizeText text).length % 2 ^ 32) := by
  have hfold : ∀ (toks : List Bytes) (seen : List ℕ), (∀ tok ∈ toks, (c.codes tok).isSome) →
      toks.foldl internToken (c, seen) = (c, toks.foldl (seeToken c.codes) seen) := by
    intro toks
    induction toks with
    | nil => exact fun _ _ => rfl
    | cons tok toks ih =>
      intro seen hk
      obtain ⟨k, hcode⟩ := Option.isSome_iff_exists.1 (hk tok List.mem_cons_self)
      have hstep : internToken (c, seen) tok = (c, seeToken c.codes seen tok) := by
        unfold internToken intern seeToken
        simp only [hcode]
      rw [List.foldl_cons, List.foldl_cons, hstep]
      exact ih _ fun t ht => hk t (List.mem_cons_of_mem tok ht)
  unfold Column.internTerms
  dsimp only
  rw [hfold (tokenizeText text) [] h]
  rfl

theorem Knows.reintern {i : InternalId} (h : c.Knows (c.rawText.getD i []))
    (hp : c.isPresent i = true) : c.reintern i = { c with
      textTerms := c.textTerms.set i (termCodes c.codes (c.rawText.getD i []))
      docLen := c.docLen.set i ((tokenizeText (c.rawText.getD i [])).length % 2 ^ 32) } := by
  rw [Column.reintern, if_neg (not_not.2 hp), h.internTerms]

theorem reintern_of_absent {i : InternalId} (hp : ¬ c.isPresent i = true) : c.reintern i = c :=
  if_pos hp

/-- The terms and token counts of the first `k` texts, read back. -/
theorem foldl_reintern (h : ∀ i r, rows[i]? = some r → c.Stores (c.cellAt i) r.2)
    (ht : c.type = .text) {k : ℕ} (hk : k ≤ rows.length) :
    ∃ terms lens, terms.length = rows.length ∧ lens.length = rows.length ∧
      (∀ i, terms.getD i [] = if i < k then c.textTerms.getD i [] else []) ∧
      (∀ i, lens.getD i 0 = if i < k then c.docLen.getD i 0 else 0) ∧
      (List.range k).foldl reintern { c with
        textTerms := List.replicate rows.length [], docLen := List.replicate rows.length 0 } =
      { c with textTerms := terms, docLen := lens } := by
  induction k with
  | zero =>
    refine ⟨_, _, List.length_replicate, List.length_replicate, fun i => ?_, fun i => ?_, rfl⟩
    · simp [List.getD_eq_getElem?_getD, List.getElem?_replicate]
      split_ifs <;> rfl
    · simp [List.getD_eq_getElem?_getD, List.getElem?_replicate]
      split_ifs <;> rfl
  | succ k ih =>
    obtain ⟨terms, lens, hT, hL, hterms, hlens, he⟩ := ih (Nat.le_of_succ_le hk)
    have hst := h k rows[k] (List.getElem?_eq_getElem hk)
    obtain ⟨hr, hterm, hlen, hknow⟩ := hst.text ht
    rw [List.range_succ, List.foldl_append, List.foldl_cons, List.foldl_nil, he]
    by_cases hp : c.isPresent k = true
    · -- a text is interned again, against a dictionary that knows it
      have hraw : c.rawText.getD k [] = rows[k].2.text := hr
      have hround : { c with textTerms := terms, docLen := lens }.reintern k =
          { c with textTerms := terms.set k (c.textTerms.getD k [])
                   docLen := lens.set k (c.docLen.getD k 0) } := by
        rw [show c.docLen.getD k 0 = tokenCount rows[k].2 from hlen,
          show c.textTerms.getD k [] = termCodes c.codes rows[k].2.text from hterm, tokenCount,
          ← hraw]
        refine Knows.reintern (c := { c with textTerms := terms, docLen := lens }) ?_ hp
        exact hraw.symm ▸ hknow
      refine ⟨terms.set k (c.textTerms.getD k []), lens.set k (c.docLen.getD k 0),
        by simpa using hT, by simpa using hL, fun i => ?_, fun i => ?_, hround⟩
      · rw [getD_set (hT.symm ▸ hk), hterms]
        by_cases hi : i = k
        · simp [hi]
        · have hik : i < k + 1 ↔ i < k := by omega
          simp only [if_neg hi, hik]
      · rw [getD_set (hL.symm ▸ hk), hlens]
        by_cases hi : i = k
        · simp [hi]
        · have hik : i < k + 1 ↔ i < k := by omega
          simp only [if_neg hi, hik]
    · -- a null has no terms
      have hnull : rows[k].2.isNull = true := by
        rw [hst.isPresent] at hp
        simpa using hp
      have hempty : rows[k].2.text = [] := by
        rw [← hst.carried, AttrValue.carried_null hnull]
      have hterm0 : c.textTerms.getD k [] = [] := by
        rw [show c.textTerms.getD k [] = termCodes c.codes rows[k].2.text from hterm, hempty]
        rfl
      have hlen0 : c.docLen.getD k 0 = 0 :=
        (show c.docLen.getD k 0 = tokenCount rows[k].2 from hlen).trans
          (tokenCount_null hst.carried hnull)
      refine ⟨terms, lens, hT, hL, fun i => ?_, fun i => ?_, reintern_of_absent hp⟩
      · rw [hterms]
        by_cases hi : i = k
        · subst hi
          rw [if_neg (lt_irrefl i), if_pos (Nat.lt_succ_self i), hterm0]
        · have hik : i < k + 1 ↔ i < k := by omega
          simp only [hik]
      · rw [hlens]
        by_cases hi : i = k
        · subst hi
          rw [if_neg (lt_irrefl i), if_pos (Nat.lt_succ_self i), hlen0]
        · have hik : i < k + 1 ↔ i < k := by omega
          simp only [hik]

theorem Sized.reintern (hs : c.Sized rows.length)
    (h : ∀ i r, rows[i]? = some r → c.Stores (c.cellAt i) r.2) (ht : c.type = .text) :
    (List.range rows.length).foldl Column.reintern { c with
        textTerms := List.replicate rows.length [], docLen := List.replicate rows.length 0 } =
      c := by
  obtain ⟨terms, lens, hT, hL, hterms, hlens, he⟩ := foldl_reintern h ht le_rfl
  obtain ⟨h1, h2, -⟩ := hs.text ht
  have hterms' : terms = c.textTerms := by
    refine List.ext_getElem (hT.trans h1.symm) fun i hi hi' => ?_
    have := hterms i
    rwa [if_pos (hT ▸ hi), List.getD_eq_getElem _ _ hi, List.getD_eq_getElem _ _ hi'] at this
  have hlens' : lens = c.docLen := by
    refine List.ext_getElem (hL.trans h2.symm) fun i hi hi' => ?_
    have := hlens i
    rwa [if_pos (hL ▸ hi), List.getD_eq_getElem _ _ hi, List.getD_eq_getElem _ _ hi'] at this
  rw [he, hterms', hlens']

/-- What `deserialize` makes of the bytes of `c` before it comes to the texts. -/
def readBack (c t : Column ι) : Column ι :=
  { t with
    type := c.type, data := c.data, present := c.present, dict := c.dict
    codes := codesOfDict c.dict }

/-- What `deserialize` makes of the bytes of `c`. -/
def reread (c t : Column ι) : Column ι :=
  (if c.type = .text then
    (List.range c.rawText.length).foldl reintern { c.readBack t with
      rawText := c.rawText, textTerms := List.replicate c.rawText.length []
      docLen := List.replicate c.rawText.length 0 }
  else c.readBack t).sizeDerived

theorem reads_number {n : ℕ} (h : n < 2 ^ 64) : (getNumber 8).Reads (putNat 8 n) n :=
  reads_nat truncated (by simpa using h)

/-- The bytes of a column are read back, whatever they hold. -/
theorem Sized.reads {n : ℕ} (h : c.Sized n) (hs : c.SizesFit) (hdict : c.dict.length < 2 ^ 64) :
    t.deserialize.Reads c.serialize (c.reread t) := by
  have hpres : c.present.length = c.data.length := h.present.trans h.data.symm
  have htype : (getNumber 1).Reads [c.type.toByte] c.type.toByte.toNat := by
    have hb : c.type.toByte.toNat < 256 ^ 1 := by simpa using c.type.toByte.toNat_lt
    have hr := reads_nat truncated hb
    rwa [show putNat 1 c.type.toByte.toNat = [c.type.toByte] by simp [putNat]] at hr
  have hdata : (many (getNumber 8) c.data.length).Reads (c.data.flatMap fun v => putNat 8 v.toNat)
      (c.data.map UInt64.toNat) :=
    reads_many fun v _ => reads_number v.toNat_lt
  have hpresent : (many (getNumber 1) c.data.length).Reads
      (c.present.flatMap fun p => [if p then 1 else 0]) (c.present.map fun p => p.toNat) := by
    rw [← hpres]
    refine reads_many fun p _ => ?_
    have hr := reads_nat truncated (w := 1) (n := p.toNat) (by cases p <;> simp)
    rwa [show putNat 1 p.toNat = [if p then (1 : UInt8) else 0] by cases p <;> rfl] at hr
  have hdata' : (c.data.map UInt64.toNat).map UInt64.ofNat = c.data := by
    rw [List.map_map]
    exact (List.map_congr_left fun v _ => UInt64.ofNat_toNat).trans (List.map_id _)
  have hpresent' : (c.present.map fun p => p.toNat).map (fun p => decide (p ≠ 0)) = c.present := by
    rw [List.map_map]
    refine (List.map_congr_left fun p _ => ?_).trans (List.map_id _)
    cases p <;> rfl
  unfold Column.deserialize Column.serialize
  refine htype.bind ((reads_number hs.rows).bind (hdata.bind (hpresent.bind
    ((reads_number hdict).bind ((reads_manyBytes hs.dict).bind ?_)))))
  dsimp only
  rw [AttrType.ofByte_toByte, hdata', hpresent']
  unfold reread
  by_cases htext : c.type = .text
  · have hlen : c.rawText.length < 2 ^ 64 := by
      have := hs.rows
      rwa [(h.text htext).2.2, ← h.data]
    rw [if_pos htext, if_pos htext, if_pos htext]
    have hread : (c.readBack t).deserializeText.Reads
        (putNat 8 c.rawText.length ++ c.rawText.flatMap putBytes)
        ((List.range c.rawText.length).foldl Column.reintern { c.readBack t with
          rawText := c.rawText, textTerms := List.replicate c.rawText.length []
          docLen := List.replicate c.rawText.length 0 }) := by
      have hr := (reads_number hlen).bind (f := fun n => do
          let rawText ← many getBytes n
          pure ((List.range n).foldl Column.reintern { c.readBack t with
            rawText := rawText, textTerms := List.replicate n [], docLen := List.replicate n 0 }))
        ((reads_manyBytes hs.raw).bind (reads_pure _))
      rwa [List.append_nil] at hr
    have hr := hread.bind (f := fun c => pure c.sizeDerived) (reads_pure _)
    rwa [List.append_nil] at hr
  · rw [if_neg htext, if_neg htext, if_neg htext]
    exact reads_pure _

theorem type_sizeDerived (c : Column ι) : c.sizeDerived.type = c.type := by
  unfold sizeDerived
  split <;> rfl

theorem type_reintern (c : Column ι) (i : InternalId) : (c.reintern i).type = c.type := by
  unfold Column.reintern
  split_ifs
  · exact type_internTerms c _
  · rfl

theorem type_reread (c t : Column ι) : (c.reread t).type = c.type := by
  have hfold : ∀ (l : List InternalId) (c : Column ι),
      (l.foldl Column.reintern c).type = c.type := by
    intro l
    induction l with
    | nil => exact fun c => rfl
    | cons i l ih => exact fun c => (ih _).trans (type_reintern c i)
  unfold Column.reread
  rw [type_sizeDerived]
  split_ifs
  · exact hfold _ _
  · rfl

/-- What is read back of a column whose values have an exact encoding. -/
theorem Dict.reread (h : c.Dict) (hs : c.Sized rows.length)
    (hstores : ∀ i r, rows[i]? = some r → c.Stores (c.cellAt i) r.2)
    (ht : t.textTerms = [] ∧ t.docLen = [] ∧ t.rawText = []) : c.reread t = c.restored t := by
  unfold Column.reread readBack
  rw [h.codesOfDict]
  by_cases htext : c.type = .text
  · -- the terms come from the texts
    set y : Column ι := { c with
      count := t.count, postings := t.postings, liveDocCount := t.liveDocCount
      totalDocLen := t.totalDocLen, index := t.index } with hy
    have hend : (List.range c.rawText.length).foldl Column.reintern { y with
        textTerms := List.replicate c.rawText.length []
        docLen := List.replicate c.rawText.length 0 } = y := by
      rw [(hs.text htext).2.2]
      refine Sized.reintern (c := y) ?_ (fun i r hr => (hstores i r hr).congr rfl rfl) htext
      exact ⟨hs.data, hs.present, hs.text, hs.plain⟩
    rw [if_pos htext]
    exact (congrArg Column.sizeDerived hend).trans rfl
  · obtain ⟨h1, h2, h3⟩ := hs.plain htext
    obtain ⟨t1, t2, t3⟩ := ht
    rw [if_neg htext]
    unfold Column.restored sizeDerived
    dsimp only
    cases htype : c.type <;> simp_all

theorem Ok.reread (h : c.Ok rows) (ht : t.textTerms = [] ∧ t.docLen = [] ∧ t.rawText = []) :
    c.reread t = c.restored t := h.dict.reread h.sized h.stores ht

/-- The column is read back from its bytes, but for the derived arrays. -/
theorem Ok.reads (h : c.Ok rows) (hs : c.SizesFit)
    (ht : t.textTerms = [] ∧ t.docLen = [] ∧ t.rawText = []) :
    t.deserialize.Reads c.serialize (c.restored t) :=
  h.reread ht ▸ h.sized.reads hs (h.dict.small.trans_lt (by decide))

theorem getD_replicate_zero (n k : ℕ) : (List.replicate n 0).getD k 0 = 0 := by
  rw [List.getD_eq_getElem?_getD, List.getElem?_replicate]
  split_ifs <;> rfl

/-- The counts and postings a column starts with once it has been read. -/
theorem exists_sizeDerived (c : Column ι) (hc : ¬ (c.type = .tag ∨ c.type = .text) → c.dict = []) :
    ∃ n p, n.length = c.width ∧ p.length = c.width ∧ (∀ k, n.getD k 0 = 0) ∧
      c.sizeDerived = { c with count := n, postings := p } := by
  unfold sizeDerived width
  cases ht : c.type with
  | tag =>
    exact ⟨_, _, by simp, by simp, getD_replicate_zero _, rfl⟩
  | text =>
    exact ⟨_, _, by simp, by simp, getD_replicate_zero _, rfl⟩
  | bool =>
    exact ⟨_, _, by simp, by simp, getD_replicate_zero 2, rfl⟩
  | _ =>
    have hnil : c.dict = [] := hc (by simp [ht])
    exact ⟨[], [], by simp [hnil], by simp [hnil], by simp, rfl⟩

theorem type_restored (c t : Column ι) : (c.restored t).type = c.type := by
  unfold restored sizeDerived
  dsimp only
  cases c.type <;> rfl

theorem dict_restored (c t : Column ι) : (c.restored t).dict = c.dict := by
  unfold restored sizeDerived
  dsimp only
  cases c.type <;> rfl

/-- The column read back holds the same rows, none of them live. -/
theorem Ok.restored (h : c.Ok rows) (h0 : t.liveDocCount = 0 ∧ t.totalDocLen = 0) :
    (c.restored t).Ok (unpublished rows) := by
  obtain ⟨n, p, hn, hp, hzero, he⟩ := exists_sizeDerived { c with
    liveDocCount := t.liveDocCount, totalDocLen := t.totalDocLen, index := t.index }
    h.dict.strings
  have hlive : ∀ p : AttrValue → Bool, (unpublished rows).countP (fun r => r.1 && p r.2) = 0 :=
    countP_unpublished rows
  unfold Column.restored
  rw [he]
  exact
  { dict := ⟨h.dict.codes, hn, hp, h.dict.small, h.dict.strings⟩
    sized := by
      rw [unpublished, List.length_map]
      exact ⟨h.sized.data, h.sized.present, h.sized.text, h.sized.plain⟩
    stores := fun i r hr => (h.stores_unpublished i r hr).congr rfl rfl
    count := fun k => (hzero k).trans (hlive fun v => decide (k ∈ c.codesOf v)).symm
    docCount := fun _ => h0.1.trans (hlive fun v => !v.isNull).symm
    docLen := fun _ => h0.2.trans (sum_unpublished rows).symm }

end Column

end Metadata

end Vdb
