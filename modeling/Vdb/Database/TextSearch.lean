import Vdb.Metadata.TextSearch
import Vdb.Database.Follows
import Vdb.Database.Matches

/-!
# Searching the texts of a database

A search for texts collects the rows that the posting lists of the query's terms name.  A row keeps
the postings of a text that is overwritten, and so a search may answer with a row whose text has
none of the terms any more.

* `VDB.texts_run` : as long as a text is only overwritten by one that has all the terms that its row
  is listed under, a search answers with live rows that have a token of the query, as many as it
  may.
-/

namespace Vdb

namespace Database

open Metadata

/-- `found` are `k` of the rows, or all of them. -/
structure Answers (k : ℕ) (rows found : List InternalId) : Prop where
  nodup : found.Nodup
  sound : ∀ i ∈ found, i ∈ rows
  length : found.length = min k rows.length
  complete : rows.length ≤ k → ∀ i ∈ rows, i ∈ found

theorem answers_take {rows all : List InternalId} (hp : all.Perm rows) (hn : rows.Nodup) (k : ℕ) :
    Answers k rows (all.take k) where
  nodup := (hp.nodup_iff.2 hn).sublist (List.take_sublist k all)
  sound i hi := hp.subset (List.mem_of_mem_take hi)
  length := by rw [List.length_take, hp.length_eq]
  complete hk i hi := by
    rw [List.take_of_length_le (hp.length_eq.trans_le hk)]
    exact hp.symm.subset hi

namespace VDB

variable {ι δ σ : Type} [ColumnIndex ι] [Distance δ] {K : Kernels δ} {config : VDBConfig}
  {X : Index → List Vec → Prop} {db db₀ : VDB ι} {op : Op} {attr : ℕ} {spec : AttrSpec}
  {allowlist : Option (List InternalId)} {query : Bytes} {es : List Entry}

/-- The live rows, in the allowlist if there is one, whose text has a token of the query. -/
def textMatches (db : VDB ι) (attr : ℕ) (query : Bytes) (allowlist : Option (List InternalId)) :
    List InternalId :=
  db.liveIds.filter fun i =>
    (allowlist.all fun allow => decide (i ∈ allow)) && db.metadata.shares attr query i

/-- What is asked of a call for searches of the texts of column `attr`. -/
def WritesTexts (K : Kernels δ) (attr : ℕ) (db : VDB ι) (op : Op) : Prop :=
  db.Writes K Column.Covers attr op ∧ db.Settles K op

omit [ColumnIndex ι] [Distance δ] in
theorem nodup_textMatches : (db.textMatches attr query allowlist).Nodup :=
  (List.nodup_range.filter _).filter _

/-- The rows of the texts after any calls. -/
theorem Follows.texts (h : ∃ es, db.Follows (fun _ c rows => c.Texts rows) config es)
    (hw : db.WritesTexts K attr op) :
    ∃ es, (db.apply K op).Follows (fun _ c rows => c.Texts rows) config es := by
  refine Follows.step Column.invariant_texts (fun _ _ _ hc => hc.sized)
    (fun spec _ hc => hc.reread spec)
    (fun hc hi he => hc.rebuildRow hi he) h ⟨hw.2, fun lsn hop => ?_⟩
  obtain ⟨hl, -⟩ := hw.1
  subst hop
  exact hl.2

omit [ColumnIndex ι] [Distance δ] in
/-- If no text is counted, no live row has one. -/
theorem Follows.textLiveCount (h : db.Follows (fun _ c rows => c.Texts rows) config es)
    (ht : (db.metadata.column attr).type = .text)
    (hattr : attr < config.schema.length) (hfit : (db.metadata.column attr).dict.length ≤ 2 ^ 32)
    (hzero : db.metadata.textLiveCount attr = 0) {i : InternalId} (hi : db.IsLive i) :
    (db.metadata.column attr).isPresent i = false := by
  have hc : db.metadata.columns[attr]? = some (db.metadata.column attr) := by
    have hlt := h.metadata.columns.symm ▸ hattr
    rw [List.getElem?_eq_getElem hlt,
      MetadataStore.column_of_getElem (List.getElem?_eq_getElem hlt)]
  have hok := (h.metadata.column attr _ hc).ok ht hfit
  unfold IsLive at hi
  rw [h.deleted, List.getElem?_map] at hi
  obtain ⟨e, he, hlive⟩ := Option.map_eq_some_iff.1 hi
  have hrow : ((es.map Entry.row).map (Row.col attr))[i]? = some (e.row.col attr) := by
    rw [List.getElem?_map, List.getElem?_map, he]
    rfl
  have hcount := (hok.docCount ht).symm.trans hzero
  have hnot := List.countP_eq_zero.1 hcount _ (List.mem_of_getElem? hrow)
  rw [(hok.stores i _ hrow).isPresent, Bool.not_eq_false']
  have hrowLive : (e.row.col attr).1 = true := show e.isLive = true by simpa using hlive
  rw [hrowLive, Bool.true_and, Bool.not_eq_true', Bool.not_eq_false] at hnot
  exact hnot

/-- The candidates are the matches, as long as the lists follow the texts. -/
theorem candidates_run (hnew : VDB.new config = .ok db₀) (ops : List Op)
    (h : Run.Along (apply K) (fun db op => db.Writes K Column.Covers attr op) db₀ ops)
    (hspec : config.schema[attr]? = some spec) (ht : spec.type = .text) (query : Bytes)
    (allowlist : Option (List InternalId)) :
    let db := ops.foldl (apply K) db₀
    (db.metadata.column attr).dict.length ≤ 2 ^ 32 →
      (db.metadata.column attr).type = .text ∧
        ∀ i, i ∈ db.metadata.candidates attr
            (termCodes (db.metadata.column attr).codes query) db.deleted allowlist ↔
          i ∈ db.textMatches attr query allowlist := by
  intro db hfit
  have hX := Index.keeps_numbers K config
  have hattr : attr < config.schema.length := (List.getElem?_eq_some_iff.1 hspec).1
  have hsized := sized_run hX hnew ops (h.mono fun _ _ hw => hw.leaves)
  have htype : (db.metadata.column attr).type = .text := (hsized.type_column hspec).trans ht
  have hnumeric : ¬ (db.metadata.column attr).Numeric := by
    rw [Column.Numeric, htype]
    decide
  obtain ⟨-, hplain⟩ := hsized.unindexed hnumeric
  have hlaid := laid_run hX hplain Column.adheres_covers hnew ops h
  have hposted := hlaid.posted hattr hfit
  refine ⟨htype, fun i => ?_⟩
  rw [textMatches, List.mem_filter, hlaid.mem_liveIds, Bool.and_eq_true, ← isLive_iff]
  refine MetadataStore.mem_candidates htype hposted fun hlive => ?_
  have hi := isLive_iff.1 hlive
  exact ⟨hlaid.deleted ▸ (List.getElem?_eq_some_iff.1 hi).1, hi⟩

/-- **A search for texts** answers with rows whose text has a token of the query. -/
theorem texts_run (B : Bm25 σ) (hnew : VDB.new config = .ok db₀) (ops : List Op)
    (h : Run.Along (apply K) (fun db op => db.WritesTexts K attr op) db₀ ops)
    (hspec : config.schema[attr]? = some spec) (ht : spec.type = .text) (query : Bytes)
    (allowlist : Option (List InternalId)) (k : ℕ) :
    let db := ops.foldl (apply K) db₀
    (db.metadata.column attr).dict.length ≤ 2 ^ 32 →
      ∃ found, db.metadata.searchText B attr query k db.deleted allowlist = .ok found ∧
        Answers k (db.textMatches attr query allowlist) (found.map TextMatch.id) := by
  intro db hfit
  have hattr : attr < config.schema.length := (List.getElem?_eq_some_iff.1 hspec).1
  obtain ⟨es, hfollows⟩ := Run.Along.invariant
    (I := fun db : VDB ι => ∃ es, db.Follows (fun _ c rows => c.Texts rows) config es)
    (fun _ _ hf hw => Follows.texts hf hw)
    ⟨[], follows_start (fun _ spec _ => Column.texts_new spec) hnew⟩ h
  obtain ⟨htype, hmem⟩ :=
    candidates_run hnew ops (h.mono fun _ _ hw => hw.1) hspec ht query allowlist hfit
  have hperm : (db.metadata.candidates attr
      (termCodes (db.metadata.column attr).codes query) db.deleted allowlist).Perm
        (db.textMatches attr query allowlist) :=
    (List.perm_ext_iff_of_nodup MetadataStore.nodup_candidates nodup_textMatches).2 hmem
  have hnone : db.metadata.textLiveCount attr = 0 → db.metadata.candidates attr
      (termCodes (db.metadata.column attr).codes query) db.deleted allowlist = [] := by
    refine fun hzero => List.eq_nil_iff_forall_not_mem.2 fun i hi => ?_
    have hcandidate := (List.mem_filter.1 (List.mem_dedup.1 hi)).2
    rw [Bool.and_eq_true, Bool.and_eq_true] at hcandidate
    obtain ⟨⟨hlive, hpresent⟩, -⟩ := hcandidate
    rw [hfollows.textLiveCount htype hattr hfit hzero (isLive_iff.1 hlive)] at hpresent
    exact Bool.false_ne_true hpresent
  obtain ⟨found, hfound, all, hall, hids⟩ := MetadataStore.searchText_eq (B := B) htype hnone
  exact ⟨found, hfound, hids ▸ answers_take (hall.trans hperm) nodup_textMatches k⟩

/-- A Brute database with one Text attribute. -/
def textConfig : VDBConfig :=
  { kind := .brute, dim := 1, schema := [{ name := [97], type := .text }] }

def textDb : VDB PairIndex where
  config := textConfig
  index := Index.make textConfig
  metadata :=
    { schema := textConfig.schema, fingerprint := computeFingerprint textConfig.schema, rows := 0
      columns := textConfig.schema.map Column.new, payload := [] }

theorem new_textDb : VDB.new textConfig = Except.ok (ε := Exn) textDb := rfl

/-- Texts ranked by how many tokens they have of those of the query. -/
def byTokens : Bm25 ℕ where
  score _ _ _ terms := (terms.map Prod.snd).sum
  above x y := decide (y < x)

/-- A text is inserted, and then overwritten. -/
def writtenTwice (first second : Bytes) : List Op :=
  [.insert [1] { attrs := [attrText first] }, .setMetadata 0 { attrs := [attrText second] }]

/-- The text "a" is overwritten by "b a". -/
theorem texts_extended :
    let db := (writtenTwice [97] [98, 32, 97]).foldl (apply System.onePlace) textDb
    ∃ found, db.metadata.searchText byTokens 0 [97] 1 db.deleted none = .ok found ∧
      Answers 1 (db.textMatches 0 [97] none) (found.map TextMatch.id) := by
  have hfirst : textDb.Writes System.onePlace Column.Covers 0
      (.insert [1] { attrs := [attrText [97]] }) := by decide +kernel
  have hsecond : (textDb.apply System.onePlace (.insert [1] { attrs := [attrText [97]] })).Writes
      System.onePlace Column.Covers 0 (.setMetadata 0 { attrs := [attrText [98, 32, 97]] }) := by
    decide +kernel
  have hrun : Run.Along (apply System.onePlace)
      (fun db op => db.WritesTexts System.onePlace 0 op) textDb (writtenTwice [97] [98, 32, 97]) :=
    ⟨⟨hfirst, .inl (by decide +kernel)⟩, ⟨hsecond, .inl (by decide +kernel)⟩, trivial⟩
  exact texts_run byTokens new_textDb (writtenTwice [97] [98, 32, 97]) hrun
    (show textConfig.schema[0]? = some _ from rfl) rfl [97] none 1 (by decide +kernel)

/-- The text "a" is overwritten by "b", and a search for "a" answers with the row. -/
theorem lost_token_found :
    let db := (writtenTwice [97] [98]).foldl (apply System.onePlace) textDb
    Run.Along (apply System.onePlace)
        (fun db op => db.Leaves System.onePlace op ∧ db.Settles System.onePlace op) textDb
        (writtenTwice [97] [98]) ∧
      ¬ ∃ found, db.metadata.searchText byTokens 0 [97] 1 db.deleted none = .ok found ∧
        Answers 1 (db.textMatches 0 [97] none) (found.map TextMatch.id) := by
  intro db
  refine ⟨⟨⟨by decide +kernel, .inl (by decide +kernel)⟩,
    ⟨by decide +kernel, .inl (by decide +kernel)⟩, trivial⟩, ?_⟩
  rintro ⟨found, hfound, hanswers⟩
  have hstale : (db.metadata.searchText byTokens 0 [97] 1 db.deleted none).map
      (List.map TextMatch.id) = .ok [0] := by decide +kernel
  rw [hfound] at hstale
  have hids : found.map TextMatch.id = [0] := Except.ok.inj hstale
  have hnone : db.textMatches 0 [97] none = [] := by decide +kernel
  have hmem := hanswers.sound 0 (hids ▸ List.mem_singleton_self 0)
  rw [hnone] at hmem
  cases hmem

end VDB

end Database

end Vdb
