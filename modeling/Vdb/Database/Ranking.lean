import Vdb.Metadata.Ranking
import Vdb.Metadata.Statistics
import Vdb.Metadata.Tokens
import Vdb.Database.TextSearch
import Vdb.Database.Interleaving

/-!
# Ranking the texts of a database

* `VDB.ranking_reached` : in every state that calls lead to, a term counts for something, a text
  with more of the terms of the query is ranked above one of the same length, and only the set of
  the tokens of the query matters.
* `VDB.long_text_outranked` : a text of `2 ^ 32` tokens is counted as if it had none of them.
-/

namespace Vdb

namespace Database

open Metadata

namespace VDB

variable {ι δ : Type} [ColumnIndex ι] [Distance δ] {K : Kernels δ} {config : VDBConfig}
  {db db₀ : VDB ι} {attr : ℕ} {spec : AttrSpec} {es : List Entry} {i : InternalId}
  {codes : List ℕ} {allowlist : Option (List InternalId)}

/-- The states that calls lead to: one call after the other, with snapshots that are loaded again in
between, or calls on distinct ids phase by phase.  No call is cut short by an exception after it has
changed something. -/
inductive Reached (K : Kernels δ) (config : VDBConfig) : VDB ι → Prop
  | calls {db₀ : VDB ι} (hnew : VDB.new config = .ok db₀) (ops : List Op)
    (h : Run.Along (apply K) (fun db op => db.Steps K op) db₀ ops) :
    Reached K config (ops.foldl (apply K) db₀)
  | phases {db₀ : VDB ι} (hnew : VDB.new config = .ok db₀) (acts : List Action)
    (h : Run.Along (System.act K) (fun s a => s.Orderly K a ∧ s.Quiet a) { db := db₀ } acts) :
    Reached K config (acts.foldl (System.act K) { db := db₀ }).db

/-- The rows of the texts. -/
structure HasTexts (config : VDBConfig) (db : VDB ι) (es : List Entry) : Prop where
  deleted : db.deleted = es.map fun e => !e.isLive
  metadata : db.metadata.Holds (fun _ c rows => c.Texts rows) config.schema (es.map Entry.row)

theorem Reached.hasTexts (h : db.Reached K config) : ∃ es, db.HasTexts config es := by
  cases h with
  | calls hnew ops h =>
    obtain ⟨es, hes⟩ := Run.Along.invariant
      (I := fun db : VDB ι => ∃ es, db.Follows (fun _ c rows => c.Texts rows) config es)
      (fun _ _ hf hs => Follows.step Column.invariant_texts (fun _ _ _ hc => hc.sized)
        (fun spec _ hc => hc.reread spec) (fun hc hi he => hc.rebuildRow hi he) hf hs)
      ⟨[], follows_start (fun _ spec _ => Column.texts_new spec) hnew⟩ h
    exact ⟨es, hes.deleted, hes.metadata⟩
  | phases hnew acts h =>
    obtain ⟨es, hes⟩ := Run.Along.invariant
      (I := fun s : System ι δ => ∃ es, s.Inv (fun _ c rows => c.Texts rows) config es)
      (fun _ _ ⟨_, hs⟩ ⟨ho, hq⟩ => hs.act Column.invariant_texts ho hq False.elim False.elim)
      ⟨[], System.inv_new hnew fun _ spec _ => Column.texts_new spec⟩ h
    exact ⟨es, hes.holds.deleted, hes.holds.metadata⟩

omit [ColumnIndex ι] in
/-- The column of a Text attribute. -/
theorem HasTexts.column (h : db.HasTexts config es) (hspec : config.schema[attr]? = some spec) :
    (db.metadata.column attr).type = spec.type ∧
      (db.metadata.column attr).Texts ((es.map Entry.row).map (Row.col attr)) := by
  have hattr := (List.getElem?_eq_some_iff.1 hspec).1
  have hc := List.getElem?_eq_getElem (h.metadata.columns.symm ▸ hattr)
  rw [MetadataStore.column_of_getElem hc]
  obtain ⟨spec', hspec', htype⟩ := h.metadata.types attr _ hc
  rw [hspec] at hspec'
  obtain rfl := Option.some.inj hspec'
  exact ⟨htype, h.metadata.column attr _ hc⟩

omit [ColumnIndex ι] in
/-- A candidate is a live row with a text. -/
theorem HasTexts.hasText (h : db.HasTexts config es)
    (hi : i ∈ db.metadata.candidates attr codes db.deleted allowlist) :
    db.metadata.HasText attr ((es.map Entry.row).map (Row.col attr)) i := by
  have hcandidate := (List.mem_filter.1 (List.mem_dedup.1 hi)).2
  rw [Bool.and_eq_true, Bool.and_eq_true] at hcandidate
  obtain ⟨⟨hlive, hpresent⟩, -⟩ := hcandidate
  have hrow := isLive_iff.1 hlive
  unfold IsLive at hrow
  rw [h.deleted, List.getElem?_map] at hrow
  obtain ⟨e, he, hdead⟩ := Option.map_eq_some_iff.1 hrow
  refine ⟨⟨e.row.attr attr, ?_⟩, hpresent⟩
  have hl : e.row.isLive = true := show e.isLive = true by simpa using hdead
  rw [List.getElem?_map, List.getElem?_map, he, Option.map_some, Option.map_some, Row.col, hl]

/-- **The ranking** in every state that is reached. -/
theorem ranking_reached (h : db.Reached K config) (hspec : config.schema[attr]? = some spec)
    (ht : spec.type = .text) (hfit : (db.metadata.column attr).dict.length ≤ 2 ^ 32) {k1 b : ℝ}
    (hk1 : 0 < k1) (hb0 : 0 ≤ b) (hb1 : b ≤ 1) :
    let codes := fun query : Bytes => termCodes (db.metadata.column attr).codes query
    let score := fun (query : Bytes) i =>
      db.metadata.scoreOf (Bm25.exact k1 b) attr (codes query) i
    let tokens := fun i => tokenizeText (db.metadata.get i attr).text
    (∀ query, ∀ code ∈ codes query,
      db.metadata.count attr code ≤ db.metadata.textLiveCount attr ∧
        0 < idf (db.metadata.textLiveCount attr) (db.metadata.count attr code)) ∧
    (∀ query allowlist,
      ∀ x ∈ db.metadata.candidates attr (codes query) db.deleted allowlist,
      ∀ y ∈ db.metadata.candidates attr (codes query) db.deleted allowlist,
      (tokens x).length = (tokens y).length → (tokens x).length < 2 ^ 32 →
      (∀ tok ∈ tokenizeText query, (tokens y).count tok ≤ (tokens x).count tok) →
        score query y ≤ score query x ∧
          ((∃ tok ∈ tokenizeText query, (tokens y).count tok < (tokens x).count tok) →
            score query y < score query x)) ∧
    (∀ query query', (∀ tok, tok ∈ tokenizeText query ↔ tok ∈ tokenizeText query') →
      ∀ i, score query i = score query' i) := by
  intro codes score tokens
  obtain ⟨es, hes⟩ := h.hasTexts
  obtain ⟨htype, htexts⟩ := hes.column hspec
  have htext := htype.trans ht
  have hok := htexts.ok htext hfit
  refine ⟨fun query code _ => ?_, fun query allowlist x hx y hy hlen hshort hmore => ?_,
    fun query query' hsame i => ?_⟩
  · have hle := hok.count_le htext code
    exact ⟨hle, idf_pos hle⟩
  · have hx := hes.hasText hx
    have hy := hes.hasText hy
    exact ⟨MetadataStore.scoreOf_le hok htext hk1 hb0 hb1 hx hy hlen hshort hmore,
      MetadataStore.scoreOf_lt hok htext hk1 hb0 hb1 hx hy hlen hshort hmore⟩
  · exact MetadataStore.scoreOf_perm (MetadataStore.termCodes_perm _ hsame) i

/-- Two texts are inserted. -/
def twoInserts (first second : Bytes) : List Op :=
  [.insert [1] { attrs := [attrText first] }, .insert [1] { attrs := [attrText second] }]

/-- For the query "a" the text "a a" is ranked above "a b". -/
theorem ranking_reached_twice :
    let db := (twoInserts [97, 32, 97] [97, 32, 98]).foldl (apply System.onePlace) textDb
    db.metadata.scoreOf (Bm25.exact (6 / 5) (3 / 4)) 0
        (termCodes (db.metadata.column 0).codes [97]) 1 <
      db.metadata.scoreOf (Bm25.exact (6 / 5) (3 / 4)) 0
        (termCodes (db.metadata.column 0).codes [97]) 0 := by
  intro db
  have hsteps : Run.Along (apply System.onePlace) (fun db op => db.Steps System.onePlace op) textDb
      (twoInserts [97, 32, 97] [97, 32, 98]) :=
    ⟨⟨.inl (by decide +kernel), fun _ => nofun⟩,
      ⟨.inl (by decide +kernel), fun _ => nofun⟩, trivial⟩
  have hreached : db.Reached System.onePlace textConfig := Reached.calls new_textDb _ hsteps
  refine ((ranking_reached hreached (show textConfig.schema[0]? = some _ from rfl) rfl
    (by decide +kernel) (show (0 : ℝ) < 6 / 5 by norm_num) (show (0 : ℝ) ≤ 3 / 4 by norm_num)
    (by norm_num)).2.1 [97] none 0 (by decide +kernel) 1 (by decide +kernel) (by decide +kernel)
      (by decide +kernel)
    (by decide +kernel)).2 ?_
  exact ⟨[97], by decide +kernel, by decide +kernel⟩

/-! ### A text of too many tokens -/

section Insert

variable {db₁ : VDB ι} {vec : Vec} {rec : Record} {iid : InternalId} {m : MetadataStore ι}

/-- What an insert leaves, phase by phase. -/
theorem call_insert (hv : db.validate rec = .ok ())
    (ha : db.reserveId.2.insertAllocate K db.nextExtId vec rec = .ok iid db₁)
    (hm : (db₁.link K iid).metadata.markLive iid = .ok () m) :
    ∃ db', db.call K (.insert vec rec) = .ok (.id db.nextExtId) db' ∧
      db' = { db₁.link K iid with
        deleted := (db₁.link K iid).deleted.set iid false
        deletedCount := decrement (db₁.link K iid).deletedCount
        metadata := m, extToInt := Function.update (db₁.link K iid).extToInt db.nextExtId (some iid)
        liveCount := (db₁.link K iid).liveCount + 1 } := by
  have hv' : db.reserveId.2.validate rec = .ok () := hv
  refine ⟨_, ?_, rfl⟩
  simp only [VDB.call, VDB.insert, hv, VDB.insertReserved, hv', Outcome.andThen, VDB.insertPublish,
    VDB.goLive]
  rw [show db.reserveId.1 = db.nextExtId from rfl, ha]
  simp only [hm, Outcome.mapState]
  rfl

end Insert

/-- The database `textDb` with some rows. -/
def textDbOf (n : ℕ) (f : ExternalId → Option InternalId) (c : Column PairIndex) :
    VDB PairIndex where
  config := textConfig
  index := .brute { dim := 1, data := List.replicate n [1] }
  extToInt := f
  intToExt := List.range n
  deleted := List.replicate n false
  vectors := List.replicate n [1]
  metadata :=
    { schema := textConfig.schema, fingerprint := computeFingerprint textConfig.schema, rows := n
      columns := [c], payload := List.replicate n [] }
  nextExtId := n
  liveCount := n

variable {n : ℕ} {f : ExternalId → Option InternalId} {c c' : Column PairIndex} {x y : Bytes}

theorem call_insert_text (hn : n = 0 ∨ n = 1)
    (h : ((c.appendValue (attrText x)).addPosting n).adjust n true = .ok () c') :
    (textDbOf n f c).call System.onePlace (.insert [1] { attrs := [attrText x] }) =
      .ok (.id n) (textDbOf (n + 1) (Function.update f n (some n)) c') := by
  have hm : MetadataStore.markLive (textDbOf (n + 1) f
        ((c.appendValue (attrText x)).addPosting n)).metadata n =
      .ok () (textDbOf (n + 1) f c').metadata := by
    rw [MetadataStore.markLive]
    change (forColumns (fun _ c => c.adjust n true) 0
      [(c.appendValue (attrText x)).addPosting n]).mapState _ = _
    rw [forColumns, h]
    rfl
  have ha : (textDbOf n f c).reserveId.2.insertAllocate System.onePlace n [1]
      { attrs := [attrText x] } = .ok n
        { textDbOf (n + 1) f ((c.appendValue (attrText x)).addPosting n) with
          deleted := List.replicate n false ++ [true], deletedCount := 1, liveCount := n } := by
    rcases hn with rfl | rfl <;> rfl
  obtain ⟨db', hcall, heq⟩ := call_insert rfl ha hm
  rw [hcall, heq]
  rcases hn with rfl | rfl <;> rfl

/-- An insert that returns. -/
theorem settled_insert {db db' : VDB PairIndex} {vec : Vec} {rec : Record} {reply : Reply}
    (h : db.call System.onePlace (.insert vec rec) = .ok reply db') (hb : rec.BoolsOk) :
    db.Steps System.onePlace (.insert vec rec) ∧
      db.Writes System.onePlace Column.Covers 0 (.insert vec rec) := by
  refine ⟨⟨.inl ?_, fun lsn hop => ?_⟩, ⟨fun hab => ?_, fun rec' hrec => ?_, trivial⟩⟩
  · rw [h]
    trivial
  · cases hop
  · have haborted : (db.call System.onePlace (.insert vec rec)).Aborted := hab.andThen
    rw [h] at haborted
    exact haborted
  · obtain rfl := Option.mem_some_iff.1 hrec
    exact hb

/-- Two texts are written, the second with no word that the first does not have. -/
theorem twoInserts_run (hlen : (tokenizeText x).length ≤ 2 ^ 32)
    (hwords : ∀ tok ∈ tokenizeText y, tok ∈ tokenizeText x) :
    ∃ f c, (twoInserts x y).foldl (apply System.onePlace) textDb = textDbOf 2 f c ∧
      c.Ok [(true, attrText x), (true, attrText y)] ∧ c.type = .text ∧ c.dict.length ≤ 2 ^ 32 ∧
      Run.Along (apply System.onePlace)
        (fun db op => db.Steps System.onePlace op ∧ db.Writes System.onePlace Column.Covers 0 op)
        textDb (twoInserts x y) := by
  set c₀ : Column PairIndex := Column.new { name := [97], type := .text } with hc₀
  have hfit : (c₀.internTerms x).1.dict.length ≤ 2 ^ 32 :=
    (Column.length_dict_internTerms c₀ x).trans ((Nat.zero_add _).trans_le hlen)
  obtain ⟨c₁, hadjust₁, hok₁, htype₁, hnone₁, hdict₁⟩ :=
    (Column.ok_new (ι := PairIndex) { name := [97], type := .text }).insertText rfl rfl hfit
  have hknows : c₁.Knows y := fun tok htok =>
    ((hok₁.stores_at (i := 0) rfl).text htype₁).2.2.2 tok (hwords tok htok)
  -- the second text adds no string, so that there are still codes enough
  have hsame : (c₁.internTerms y).1 = c₁ := by rw [hknows.internTerms]
  rw [← hdict₁] at hfit
  obtain ⟨c₂, hadjust₂, hok₂, htype₂, -, hdict₂⟩ :=
    hok₁.insertText htype₁ hnone₁
      (show (c₁.internTerms y).1.dict.length ≤ 2 ^ 32 from hsame.symm ▸ hfit)
  have hcall₁ := call_insert_text (f := fun _ => none) (.inl rfl) hadjust₁
  have hcall₂ := call_insert_text (f := Function.update (fun _ => none) 0 (some 0)) (.inr rfl)
    hadjust₂
  have hfirst : textDb.apply System.onePlace (.insert [1] { attrs := [attrText x] }) =
      textDbOf 1 (Function.update (fun _ => none) 0 (some 0)) c₁ :=
    congrArg Outcome.state hcall₁
  have hsecond : (twoInserts x y).foldl (apply System.onePlace) textDb = textDbOf 2
      (Function.update (Function.update (fun _ => none) 0 (some 0)) 1 (some 1)) c₂ := by
    rw [twoInserts, List.foldl_cons, hfirst]
    exact congrArg Outcome.state hcall₂
  have hbools : ∀ text, Record.BoolsOk { attrs := [attrText text] } := by
    intro text v hv hbool
    obtain rfl := List.mem_singleton.1 hv
    cases hbool
  have hrun : Run.Along (apply System.onePlace)
      (fun db op => db.Steps System.onePlace op ∧ db.Writes System.onePlace Column.Covers 0 op)
      textDb (twoInserts x y) := by
    refine ⟨settled_insert hcall₁ (hbools x), ?_, trivial⟩
    rw [hfirst]
    exact settled_insert hcall₂ (hbools y)
  have hfit₂ : c₂.dict.length ≤ 2 ^ 32 := by rwa [hdict₂, hsame]
  exact ⟨_, c₂, hsecond, hok₂, htype₂, hfit₂, hrun⟩

/-- A text with more of the word is ranked below one with less, among `2 ^ 32` tokens. -/
theorem outranked_of_tokens (hn : n + 1 = 2 ^ 32) {query word other : Bytes} (hne : word ≠ other)
    (hquery : tokenizeText query = [word]) (hx : tokenizeText x = other :: List.replicate n word)
    (hy : tokenizeText y = List.replicate (n + 1) word) {k1 b : ℝ} (hk1 : 0 < k1) (hb0 : 0 ≤ b)
    (hb1 : b < 1) :
    let db := (twoInserts x y).foldl (apply System.onePlace) textDb
    let codes := termCodes (db.metadata.column 0).codes query
    let score := db.metadata.scoreOf (Bm25.exact k1 b) 0 codes
    let tokens := fun i => tokenizeText (db.metadata.get i 0).text
    db.Reached System.onePlace textConfig ∧ (db.metadata.column 0).dict.length ≤ 2 ^ 32 ∧
      0 ∈ db.metadata.candidates 0 codes db.deleted none ∧
      1 ∈ db.metadata.candidates 0 codes db.deleted none ∧
      (tokens 1).length = (tokens 0).length ∧
      (∀ tok ∈ tokenizeText query, (tokens 0).count tok < (tokens 1).count tok) ∧
      score 1 < score 0 := by
  intro db codes score tokens
  have hword₀ : word ∈ tokenizeText x := by
    rw [hx]
    exact List.mem_cons_of_mem _ (List.mem_replicate.2 ⟨by omega, rfl⟩)
  have hword₁ : word ∈ tokenizeText y := by
    rw [hy]
    exact List.mem_replicate.2 ⟨n.succ_ne_zero, rfl⟩
  obtain ⟨f, c, hdb, hok, htype, hfit, hrun⟩ := twoInserts_run (x := x) (y := y)
    (by rw [hx, List.length_cons, List.length_replicate, hn])
    (fun tok htok => by
      rw [hy] at htok
      obtain rfl := List.eq_of_mem_replicate htok
      exact hword₀)
  have hcolumn : db.metadata.column 0 = c := congrArg (fun db => db.metadata.column 0) hdb
  have hreached : db.Reached System.onePlace textConfig :=
    Reached.calls new_textDb (twoInserts x y) (hrun.mono fun _ _ h => h.1)
  rw [← hcolumn] at hok htype hfit
  have hmem : ∀ i, i ∈ db.metadata.candidates 0 codes db.deleted none ↔
      i ∈ db.textMatches 0 query none :=
    (candidates_run new_textDb (twoInserts x y) (hrun.mono fun _ _ h => h.2)
      (show textConfig.schema[0]? = some _ from rfl) rfl query none hfit).2
  have hids : db.liveIds = [0, 1] := congrArg liveIds hdb
  -- from here on only what has been said of the database counts
  clear_value db
  have htokens₀ : tokens 0 = tokenizeText x :=
    congrArg tokenizeText (MetadataStore.text_of_stores hok htype (i := 0) rfl rfl)
  have htokens₁ : tokens 1 = tokenizeText y :=
    congrArg tokenizeText (MetadataStore.text_of_stores hok htype (i := 1) rfl rfl)
  refine ⟨hreached, hfit, (hmem 0).2 ?_, (hmem 1).2 ?_, ?_, fun tok htok => ?_,
    MetadataStore.scoreOf_wraps hn hk1 hb0 hb1 hok htype hne hquery hx hy⟩
  · refine List.mem_filter.2 ⟨hids ▸ List.mem_cons_self, ?_⟩
    exact MetadataStore.shares_of_mem hok htype (i := 0) rfl rfl
      (hquery ▸ List.mem_singleton_self word) hword₀
  · refine List.mem_filter.2 ⟨hids ▸ List.mem_cons_of_mem 0 List.mem_cons_self, ?_⟩
    exact MetadataStore.shares_of_mem hok htype (i := 1) rfl rfl
      (hquery ▸ List.mem_singleton_self word) hword₁
  · rw [htokens₀, htokens₁, hx, hy, List.length_cons, List.length_replicate, List.length_replicate]
  · rw [hquery] at htok
    obtain rfl := List.mem_singleton.1 htok
    rw [htokens₀, htokens₁, hx, hy, List.count_cons_of_ne hne.symm, List.count_replicate_self,
      List.count_replicate_self]
    exact n.lt_succ_self

/-- The word "a" `2 ^ 32` times counts for nothing, and once less, after another word, it does. -/
theorem long_text_outranked :
    let db :=
      (twoInserts ([98] ++ [32] ++ Tracked.words (2 ^ 32 - 1)) (Tracked.words (2 ^ 32))).foldl
      (apply System.onePlace) textDb
    let codes := termCodes (db.metadata.column 0).codes [97]
    let score := db.metadata.scoreOf (Bm25.exact (6 / 5) (3 / 4)) 0 codes
    let tokens := fun i => tokenizeText (db.metadata.get i 0).text
    db.Reached System.onePlace textConfig ∧ (db.metadata.column 0).dict.length ≤ 2 ^ 32 ∧
      0 ∈ db.metadata.candidates 0 codes db.deleted none ∧
      1 ∈ db.metadata.candidates 0 codes db.deleted none ∧
      (tokens 1).length = (tokens 0).length ∧
      (∀ tok ∈ tokenizeText [97], (tokens 0).count tok < (tokens 1).count tok) ∧
      score 1 < score 0 := by
  refine outranked_of_tokens (n := 2 ^ 32 - 1) (by norm_num)
    (show ([97] : Bytes) ≠ [98] by decide) rfl ?_ (Tracked.tokenizeText_words (2 ^ 32))
    (by norm_num) (by norm_num) (by norm_num)
  rw [tokenizeText_append_sep _ _ (by decide) (by decide +kernel), Tracked.tokenizeText_words]
  rfl

end VDB

end Database

end Vdb
