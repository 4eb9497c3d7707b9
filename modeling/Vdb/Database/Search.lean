import Vdb.Database.Shape
import Vdb.Lib.Selection

/-!
# Searches

Search under a predicate, by over-fetching from the index (`collectResolved`), by scanning the rows
that match (`collectPrefiltered`), and as a cost model says (`collectAuto`).  Over a Brute index
each is a selection from the rows it may report.

* `System.strategies_agree` : in every state that calls and reloads reach, the three answer with the
  same distances, and throw in the same cases.
-/

namespace Vdb

namespace Database

open Metadata Selection

instance totalLe {δ : Type} [Distance δ] : Std.Total (α := δ) (· ≤ ·) := ⟨Distance.le_total⟩

inductive FilterStrategy where
  | post
  | pre
  deriving DecidableEq

/-- `a - b` in `size_t`. -/
def sizeSub (a b : ℕ) : ℕ := (a + (2 ^ 64 - b % 2 ^ 64)) % 2 ^ 64

/-- What a predicate without a list of its rows ends a search with; the dash is not ASCII. -/
def noAllowlist (caller reason : String) : Exn :=
  .invalidArgument (ascii caller ++
    ascii ": predicate did not resolve to an allowlist (range on a non-indexed column) " ++
    [0xE2, 0x80, 0x94] ++ ascii reason)

namespace VDB

variable {ι δ : Type} [ColumnIndex ι] [Distance δ] (K : Kernels δ) (db : VDB ι)

/-- How many rows `collect_` asks the index for, under a predicate with so many matches. -/
def wantMatching (k n : ℕ) : ℕ :=
  min ((k + sizeSub db.index.size n) % 2 ^ 64) db.index.size

/-- `collect_` with a predicate. -/
def collectResolved (query : Vec) (k : ℕ) (pred : ResolvedPredicate) :
    Except Exn (List (InternalId × δ)) :=
  match pred.allowlist with
  | none => .error (noAllowlist "collect_" " per-candidate evaluation isn't supported yet")
  | some allowlist =>
    match db.index.search K db.config.metric query (db.wantMatching k allowlist.length) with
    | .error e => .error e
    | .ok found => .ok ((found.filter fun e =>
        !db.deleted.getD e.1 false && decide (e.1 ∈ allowlist)).take k)

/-- `prefilter_scan_`. -/
def prefilterScan (query : Vec) (k : ℕ) (allowlist : List InternalId) : List (InternalId × δ) :=
  let all := allowlist.map fun i => (i, K.dist db.config.metric query (db.vectors.getD i []))
  (all.insertionSort fun a b => a.2 ≤ b.2).take k

/-- `collect_prefiltered_`. -/
def collectPrefiltered (query : Vec) (k : ℕ) (pred : Predicate) :
    Except Exn (List (InternalId × δ)) := do
  let resolved ← db.metadata.resolve pred db.deleted
  match resolved.allowlist with
  | none => throw (noAllowlist "collect_prefiltered_" " pre-filter needs a materialized match set")
  | some allowlist => pure (db.prefilterScan K query k allowlist)

/-- `collect_auto_`.  `plan` is `plan_strategy` with the calibration of the database, as a function
of the number of rows, the dimension, `k` and the number of matches. -/
def collectAuto (plan : ℕ → ℕ → ℕ → ℕ → FilterStrategy) (query : Vec) (k : ℕ) (pred : Predicate) :
    Except Exn (List (InternalId × δ)) := do
  let resolved ← db.metadata.resolve pred db.deleted
  match resolved.allowlist with
  | some allowlist =>
    if 0 < db.index.size ∧ plan db.index.size db.config.dim k allowlist.length = .pre then
      pure (db.prefilterScan K query k allowlist)
    else db.collectResolved K query k resolved
  | none => db.collectResolved K query k resolved

/-- `resolve`, then `out.reserve(k)` and `collect_`. -/
def reportWhere {α : Type} (bytes : ℕ) (query : Vec) (k : ℕ) (pred : Predicate)
    (emit : InternalId × δ → α) : Except Exn (List α) := do
  let resolved ← db.metadata.resolve pred db.deleted
  report bytes k (db.collectResolved K query k resolved) emit

/-- `search` with a predicate. -/
def searchWhere (query : Vec) (k : ℕ) (pred : Predicate) : Except Exn (List ExternalId) :=
  if k = 0 then .ok [] else db.reportWhere K idBytes query k pred db.extOf

/-- `search_hits` with a predicate. -/
def searchHitsWhere (query : Vec) (k : ℕ) (pred : Predicate) : Except Exn (List (Hit δ)) :=
  if k = 0 then .ok [] else db.reportWhere K hitBytes query k pred db.hitOf

def searchPrefiltered (query : Vec) (k : ℕ) (pred : Predicate) : Except Exn (List ExternalId) :=
  if k = 0 then .ok [] else report idBytes k (db.collectPrefiltered K query k pred) db.extOf

def searchHitsPrefiltered (query : Vec) (k : ℕ) (pred : Predicate) : Except Exn (List (Hit δ)) :=
  if k = 0 then .ok [] else report hitBytes k (db.collectPrefiltered K query k pred) db.hitOf

def searchAuto (plan : ℕ → ℕ → ℕ → ℕ → FilterStrategy) (query : Vec) (k : ℕ) (pred : Predicate) :
    Except Exn (List ExternalId) :=
  if k = 0 then .ok [] else report idBytes k (db.collectAuto K plan query k pred) db.extOf

def searchHitsAuto (plan : ℕ → ℕ → ℕ → ℕ → FilterStrategy) (query : Vec) (k : ℕ)
    (pred : Predicate) : Except Exn (List (Hit δ)) :=
  if k = 0 then .ok [] else report hitBytes k (db.collectAuto K plan query k pred) db.hitOf

/-! ### A search as a selection -/

/-- A row with its distance to the query. -/
def candidate (query : Vec) (i : InternalId) : InternalId × δ :=
  (i, K.dist db.config.metric query (db.vectors.getD i []))

variable {K db} {config : VDBConfig} {query : Vec} {k : ℕ} {allowlist : List InternalId}

omit [ColumnIndex ι] in
/-- A Brute index answers with the nearest rows there are. -/
theorem Shaped.search (h : db.Shaped config) (query : Vec) (n : ℕ) :
    ∃ found, db.index.search K db.config.metric query n = .ok found ∧
      Selects Prod.snd n ((List.range db.index.size).map (db.candidate K query)) found := by
  have hall : db.vectors.mapIdx (fun i v => (i, K.dist db.config.metric query v)) =
      (List.range db.index.size).map (db.candidate K query) := by
    rw [h.index]
    refine List.ext_getElem (by simp [Index.size]) fun i h1 h2 => ?_
    rw [List.length_mapIdx] at h1
    rw [List.getElem_mapIdx, List.getElem_map, List.getElem_range, candidate,
      List.getD_eq_getElem _ _ h1]
  refine ⟨_, by rw [h.index]; rfl, ?_⟩
  rw [← hall]
  exact selects_insertionSort Prod.snd n _

omit [ColumnIndex ι] in
/-- Of what the index answers enough is left when the rows that may not be reported are dropped. -/
theorem Shaped.search_filter (h : db.Shaped config) (query : Vec) {n : ℕ} {ids : List InternalId}
    {p : InternalId → Bool} (hids : (((List.range db.index.size).filter p).Perm ids))
    (hn : k + (db.index.size - ids.length) ≤ n ∨ db.index.size ≤ n) :
    ∃ found, db.index.search K db.config.metric query n = .ok found ∧
      Selects Prod.snd k (ids.map (db.candidate K query))
      ((found.filter fun e => p e.1).take k) := by
  obtain ⟨found, hfound, hselects⟩ := h.search (K := K) query n
  refine ⟨found, hfound, ?_⟩
  have hdropped : (List.range db.index.size).countP (fun i => !p i) =
      db.index.size - ids.length := by
    have hsplit := List.length_eq_countP_add_countP p (l := List.range db.index.size)
    have hnot : List.countP (fun i => decide ¬ p i = true) (List.range db.index.size) =
        (List.range db.index.size).countP fun i => !p i := List.countP_congr fun i _ => by simp
    rw [hnot, List.length_range, List.countP_eq_length_filter, hids.length_eq] at hsplit
    omega
  have hfilter := hselects.filter (k := k) (p := fun e => p e.1)
    (hn.imp (fun hle => ?_) fun hle => ?_)
  · rw [List.filter_map] at hfilter
    exact hfilter.perm (hids.map _)
  · rw [List.countP_map]
    exact hdropped.symm ▸ hle
  · rwa [List.length_map, List.length_range]

omit [ColumnIndex ι] in
/-- Rows that are in range, each once, are a part of all rows. -/
theorem filter_range_perm {ids : List InternalId} {n : ℕ} (hnodup : ids.Nodup)
    {p : InternalId → Bool} (hp : ∀ i, i < n ∧ p i = true ↔ i ∈ ids) :
    ((List.range n).filter p).Perm ids :=
  (List.perm_ext_iff_of_nodup (List.nodup_range.filter p) hnodup).2 fun i => by
    rw [List.mem_filter, List.mem_range, hp]

omit [ColumnIndex ι] [Distance δ] in
theorem sizeSub_of_le {a b : ℕ} (hb : b ≤ a) (ha : a < 2 ^ 64) : sizeSub a b = a - b := by
  unfold sizeSub
  rw [Nat.mod_eq_of_lt (hb.trans_lt ha)]
  have hsplit : a + (2 ^ 64 - b) = (a - b) + 2 ^ 64 := by omega
  rw [hsplit, Nat.add_mod_right, Nat.mod_eq_of_lt (by omega)]

/-! ### The three strategies -/

/-- The rows found are the `k` nearest of those in the list, the nearest first. -/
structure Finds (K : Kernels δ) (db : VDB ι) (query : Vec) (k : ℕ) (allowlist : List InternalId)
    (found : List (InternalId × δ)) : Prop where
  allowed : ∀ e ∈ found, e.1 ∈ allowlist ∧ e = db.candidate K query e.1
  nearest : Selects id k (allowlist.map fun i => (db.candidate K query i).2) (found.map Prod.snd)

omit [ColumnIndex ι] in
theorem finds_of_selects {found : List (InternalId × δ)}
    (h : Selects Prod.snd k (allowlist.map (db.candidate K query)) found) :
    db.Finds K query k allowlist found where
  allowed e he := by
    obtain ⟨i, hi, rfl⟩ := List.mem_map.1 (h.subset he)
    exact ⟨hi, rfl⟩
  nearest := by
    have hmap : Selects id k ((allowlist.map (db.candidate K query)).map Prod.snd)
        (found.map Prod.snd) := Selects.map h
    rwa [List.map_map] at hmap

omit [ColumnIndex ι] in
/-- Two answers have the same distances. -/
theorem Finds.distances {found found' : List (InternalId × δ)}
    (h : db.Finds K query k allowlist found)
    (h' : db.Finds K query k allowlist found') :
    List.Forall₂ (AntisymmRel (· ≤ ·)) (found.map Prod.snd) (found'.map Prod.snd) :=
  h.nearest.keys h'.nearest (.refl _)

omit [ColumnIndex ι] in
/-- Scanning the list finds its nearest rows. -/
theorem finds_prefilterScan (query : Vec) (k : ℕ) (allowlist : List InternalId) :
    db.Finds K query k allowlist (db.prefilterScan K query k allowlist) :=
  finds_of_selects (selects_insertionSort Prod.snd k _)

omit [ColumnIndex ι] in
/-- Over-fetching finds them too. -/
theorem Shaped.finds_collectResolved (h : db.Shaped config) (hk : k + db.index.size < 2 ^ 64)
    (hlive : ∀ i ∈ allowlist, i ∈ db.liveIds) (hnodup : allowlist.Nodup) (query : Vec)
    (pred : Predicate) :
    ∃ found, db.collectResolved K query k ⟨pred, some allowlist⟩ = .ok found ∧
      db.Finds K query k allowlist found := by
  have hsize : db.index.size = db.intToExt.length := by
    rw [h.ids, h.index]
    rfl
  have hmem : ∀ i ∈ allowlist, i < db.index.size ∧ db.deleted.getD i false = false := fun i hi => by
    obtain ⟨hlt, hd⟩ := List.mem_filter.1 (hlive i hi)
    rw [hsize]
    exact ⟨List.mem_range.1 hlt, Bool.not_eq_true' _ ▸ hd⟩
  have hperm : ((List.range db.index.size).filter fun i =>
      !db.deleted.getD i false && decide (i ∈ allowlist)).Perm allowlist :=
    filter_range_perm hnodup fun i => by
      constructor
      · rintro ⟨-, hp⟩
        rw [Bool.and_eq_true, decide_eq_true_iff] at hp
        exact hp.2
      · intro hi
        obtain ⟨hlt, hd⟩ := hmem i hi
        rw [hd, decide_eq_true hi]
        exact ⟨hlt, rfl⟩
  have hle : allowlist.length ≤ db.index.size := by
    rw [← hperm.length_eq]
    exact (List.length_filter_le _ _).trans_eq List.length_range
  have hwant : db.wantMatching k allowlist.length =
      min (k + (db.index.size - allowlist.length)) db.index.size := by
    unfold wantMatching
    rw [sizeSub_of_le hle (by omega), Nat.mod_eq_of_lt (by omega)]
  obtain ⟨found, hfound, hselects⟩ := h.search_filter (K := K) (k := k)
    (n := db.wantMatching k allowlist.length) query hperm (by rw [hwant]; omega)
  refine ⟨_, ?_, finds_of_selects hselects⟩
  unfold collectResolved
  dsimp only
  rw [hfound]

/-- The predicate resolves to a list of its rows. -/
def Resolves (db : VDB ι) (pred : Predicate) (allowlist : List InternalId) : Prop :=
  ∃ r, db.metadata.resolve pred db.deleted = .ok r ∧ r.allowlist = some allowlist

/-- `resolve` throws, or yields no list. -/
def Unresolved (db : VDB ι) (pred : Predicate) : Prop := ¬ ∃ allowlist, db.Resolves pred allowlist

def Throws {α : Type} (r : Except Exn α) : Prop := ∃ e, r = .error e

/-- Both searches of a strategy report these rows, if their vectors have room for `k`. -/
structure Reports (db : VDB ι) (k : ℕ) (found : List (InternalId × δ))
    (ids : Except Exn (List ExternalId)) (hits : Except Exn (List (Hit δ))) : Prop where
  ids : k ≤ maxSize idBytes → ids = .ok (found.map db.extOf)
  hits : k ≤ maxSize hitBytes → hits = .ok (found.map db.hitOf)

variable {pred : Predicate} {α : Type} {bytes : ℕ} {emit : InternalId × δ → α}

omit [ColumnIndex ι] [Distance δ] in
theorem reports_of_collect {found : List (InternalId × δ)}
    {collected : Except Exn (List (InternalId × δ))} (h : collected = .ok found) :
    db.Reports k found (report idBytes k collected db.extOf)
      (report hitBytes k collected db.hitOf) := by
  subst h
  exact ⟨fun hk => report_ok hk, fun hk => report_ok hk⟩

omit [ColumnIndex ι] [Distance δ] in
theorem throws_report {collected : Except Exn (List (InternalId × δ))} :
    Throws (report bytes k collected emit) ↔ Throws collected ∨ maxSize bytes < k := by
  by_cases hk : maxSize bytes < k
  · rw [report_full hk]
    exact iff_of_true ⟨_, rfl⟩ (.inr hk)
  · rw [report_ok (not_lt.1 hk), or_iff_left hk]
    cases collected with
    | ok found => exact ⟨nofun, nofun⟩
    | error e => exact ⟨fun _ => ⟨e, rfl⟩, fun _ => ⟨e, rfl⟩⟩

omit [Distance δ] in
/-- What goes on after `resolve` throws without a list, and by itself. -/
theorem throws_resolve {p : Prop} {next : ResolvedPredicate → Except Exn α}
    (hnone : ∀ r, r.allowlist = none → Throws (next r))
    (hsome : ∀ r allowlist, r.allowlist = some allowlist → (Throws (next r) ↔ p)) :
    Throws (db.metadata.resolve pred db.deleted >>= next) ↔ db.Unresolved pred ∨ p := by
  unfold Unresolved Resolves
  cases db.metadata.resolve pred db.deleted with
  | error e => exact iff_of_true ⟨e, rfl⟩ (.inl fun ⟨_, r, hr, _⟩ => by cases hr)
  | ok r =>
    cases hr : r.allowlist with
    | none =>
      refine iff_of_true (hnone r hr) (.inl fun ⟨allowlist, r', hr', hsome⟩ => ?_)
      cases hr'
      rw [hr] at hsome
      cases hsome
    | some allowlist =>
      refine (hsome r allowlist hr).trans (or_iff_right fun h => ?_).symm
      exact h ⟨allowlist, r, rfl, hr⟩

omit [ColumnIndex ι] in
theorem Shaped.throws_collectResolved (h : db.Shaped config) (query : Vec) (k : ℕ)
    (r : ResolvedPredicate) : Throws (db.collectResolved K query k r) ↔ r.allowlist = none := by
  unfold collectResolved
  cases r.allowlist with
  | none => exact iff_of_true ⟨_, rfl⟩ rfl
  | some allowlist =>
    obtain ⟨found, hfound, -⟩ := h.search (K := K) query (db.wantMatching k allowlist.length)
    dsimp only
    rw [hfound]
    exact ⟨nofun, nofun⟩

theorem Shaped.throws_reportWhere (h : db.Shaped config) (query : Vec) :
    Throws (db.reportWhere K bytes query k pred emit) ↔
      db.Unresolved pred ∨ maxSize bytes < k := by
  refine throws_resolve (fun r hr => ?_) fun r allowlist hr => ?_
  · exact throws_report.2 (.inl ((h.throws_collectResolved query k r).2 hr))
  · refine throws_report.trans (or_iff_right fun hthrows => ?_)
    rw [(h.throws_collectResolved query k r).1 hthrows] at hr
    cases hr

theorem throws_collectPrefiltered (query : Vec) :
    Throws (db.collectPrefiltered K query k pred) ↔ db.Unresolved pred := by
  refine (throws_resolve (p := False) (fun r hr => ?_) fun r allowlist hr => ?_).trans
    (by rw [or_false])
  · rw [hr]
    exact ⟨_, rfl⟩
  · rw [hr]
    exact ⟨nofun, nofun⟩

theorem Shaped.throws_collectAuto (h : db.Shaped config) (plan : ℕ → ℕ → ℕ → ℕ → FilterStrategy)
    (query : Vec) : Throws (db.collectAuto K plan query k pred) ↔ db.Unresolved pred := by
  refine (throws_resolve (p := False) (fun r hr => ?_) fun r allowlist hr => ?_).trans
    (by rw [or_false])
  · rw [hr]
    exact (h.throws_collectResolved query k r).2 hr
  · rw [hr]
    refine iff_of_false ?_ id
    dsimp only
    split_ifs
    · exact nofun
    · intro hthrows
      rw [(h.throws_collectResolved query k r).1 hthrows] at hr
      cases hr

end VDB

namespace System

open VDB

variable {ι δ : Type} [ColumnIndex ι] [Distance δ] {K : Kernels δ} {config : VDBConfig}
  {db₀ : VDB ι}
  {k : ℕ}

/-- **The three strategies** answer with the same distances, those of the `k` nearest rows that
match, and throw in the same cases. -/
theorem strategies_agree (hnew : VDB.new config = .ok db₀) (hbrute : config.kind = .brute)
    (steps : List Step) (h : Run.Along (step K) (fun s a => s.Leaves K a) { db := db₀ } steps)
    (plan : ℕ → ℕ → ℕ → ℕ → FilterStrategy) (query : Vec) (hk : 0 < k) (pred : Predicate) :
    let db := (steps.foldl (step K) { db := db₀ }).db
    (k + db.index.size < 2 ^ 64 → ∀ allowlist, db.Resolves pred allowlist → allowlist.Nodup →
      (∀ i ∈ allowlist, i ∈ db.liveIds) → ∃ post pre auto : List (InternalId × δ),
        (db.Finds K query k allowlist post ∧ db.Finds K query k allowlist pre ∧
          db.Finds K query k allowlist auto) ∧
        (db.Reports k post (db.searchWhere K query k pred) (db.searchHitsWhere K query k pred) ∧
          db.Reports k pre (db.searchPrefiltered K query k pred)
            (db.searchHitsPrefiltered K query k pred) ∧
          db.Reports k auto (db.searchAuto K plan query k pred)
            (db.searchHitsAuto K plan query k pred)) ∧
        List.Forall₂ (AntisymmRel (· ≤ ·)) (post.map Prod.snd) (pre.map Prod.snd) ∧
        List.Forall₂ (AntisymmRel (· ≤ ·)) (post.map Prod.snd) (auto.map Prod.snd)) ∧
      ((Throws (db.searchWhere K query k pred) ↔ db.Unresolved pred ∨ maxSize idBytes < k) ∧
        (Throws (db.searchPrefiltered K query k pred) ↔
          db.Unresolved pred ∨ maxSize idBytes < k) ∧
        (Throws (db.searchAuto K plan query k pred) ↔
          db.Unresolved pred ∨ maxSize idBytes < k)) ∧
      ((Throws (db.searchHitsWhere K query k pred) ↔ db.Unresolved pred ∨ maxSize hitBytes < k) ∧
        (Throws (db.searchHitsPrefiltered K query k pred) ↔
          db.Unresolved pred ∨ maxSize hitBytes < k) ∧
        (Throws (db.searchHitsAuto K plan query k pred) ↔
          db.Unresolved pred ∨ maxSize hitBytes < k)) := by
  have hshape := shaped_run hnew hbrute steps h
  generalize (steps.foldl (step K) { db := db₀ }).db = db at hshape
  refine ⟨fun hsize allowlist hresolves hnodup hlive => ?_, ⟨?_, ?_, ?_⟩, ?_, ?_, ?_⟩
  · obtain ⟨⟨pred', list⟩, hr, rfl⟩ := hresolves
    obtain ⟨found, hfound, hfinds⟩ :=
      hshape.finds_collectResolved (K := K) hsize hlive hnodup query pred'
    have hscan : db.Finds K query k allowlist (db.prefilterScan K query k allowlist) :=
      finds_prefilterScan query k allowlist
    have hpre : db.collectPrefiltered K query k pred =
        .ok (db.prefilterScan K query k allowlist) := by
      unfold collectPrefiltered
      rw [hr]
      rfl
    -- whatever the planner says, it is one of the other two that runs
    obtain ⟨auto, hauto, hfindsAuto⟩ : ∃ auto, db.collectAuto K plan query k pred = .ok auto ∧
        db.Finds K query k allowlist auto := by
      by_cases hplan : 0 < db.index.size ∧
          plan db.index.size db.config.dim k allowlist.length = .pre
      · refine ⟨_, ?_, hscan⟩
        unfold collectAuto
        rw [hr]
        exact if_pos hplan
      · refine ⟨found, ?_, hfinds⟩
        unfold collectAuto
        rw [hr]
        exact (if_neg hplan).trans hfound
    refine ⟨found, db.prefilterScan K query k allowlist, auto, ⟨hfinds, hscan, hfindsAuto⟩, ?_,
      hfinds.distances hscan, hfinds.distances hfindsAuto⟩
    unfold searchWhere searchHitsWhere searchPrefiltered searchHitsPrefiltered searchAuto
      searchHitsAuto reportWhere
    simp only [if_neg hk.ne', hr]
    exact ⟨reports_of_collect hfound, reports_of_collect hpre, reports_of_collect hauto⟩
  · rw [searchWhere, if_neg hk.ne']
    exact hshape.throws_reportWhere query
  · rw [searchPrefiltered, if_neg hk.ne']
    exact throws_report.trans (or_congr_left (throws_collectPrefiltered query))
  · rw [searchAuto, if_neg hk.ne']
    exact throws_report.trans (or_congr_left (hshape.throws_collectAuto plan query))
  · rw [searchHitsWhere, if_neg hk.ne']
    exact hshape.throws_reportWhere query
  · rw [searchHitsPrefiltered, if_neg hk.ne']
    exact throws_report.trans (or_congr_left (throws_collectPrefiltered query))
  · rw [searchHitsAuto, if_neg hk.ne']
    exact throws_report.trans (or_congr_left (hshape.throws_collectAuto plan query))

/-- A row with the tag is live. -/
theorem strategies_tagged :
    let steps := [Step.act (.insert [1] { attrs := [attrTag [120]] }), .act (.allocate 0),
      .act (.link 0), .act (.publish 0)]
    let db := (steps.foldl (step onePlace) { db := taggedDb }).db
    ∃ post pre auto : List (InternalId × ℕ),
      (db.Finds onePlace [3] 2 [0] post ∧ db.Finds onePlace [3] 2 [0] pre ∧
        db.Finds onePlace [3] 2 [0] auto) ∧
      (db.Reports 2 post (db.searchWhere onePlace [3] 2 (predEq 0 (attrTag [120])))
          (db.searchHitsWhere onePlace [3] 2 (predEq 0 (attrTag [120]))) ∧
        db.Reports 2 pre (db.searchPrefiltered onePlace [3] 2 (predEq 0 (attrTag [120])))
          (db.searchHitsPrefiltered onePlace [3] 2 (predEq 0 (attrTag [120]))) ∧
        db.Reports 2 auto
          (db.searchAuto onePlace (fun _ _ _ _ => .pre) [3] 2 (predEq 0 (attrTag [120])))
          (db.searchHitsAuto onePlace (fun _ _ _ _ => .pre) [3] 2 (predEq 0 (attrTag [120])))) ∧
      List.Forall₂ (AntisymmRel (· ≤ ·)) (post.map Prod.snd) (pre.map Prod.snd) ∧
      List.Forall₂ (AntisymmRel (· ≤ ·)) (post.map Prod.snd) (auto.map Prod.snd) :=
  (strategies_agree new_taggedDb rfl
    [.act (.insert [1] { attrs := [attrTag [120]] }), .act (.allocate 0), .act (.link 0),
      .act (.publish 0)]
    ⟨⟨by decide +kernel, nofun⟩, ⟨by decide +kernel, nofun⟩, ⟨by decide +kernel, nofun⟩,
      ⟨by decide +kernel, nofun⟩, trivial⟩
    (fun _ _ _ _ => .pre) [3] (by decide) (predEq 0 (attrTag [120]))).1 (by decide +kernel) [0]
    ⟨_, rfl, rfl⟩ (by decide) (by decide +kernel)

/-- A vector of `2 ^ 61` ids cannot be reserved, whatever the predicate resolves to. -/
theorem reserve_throws :
    VDB.new taggedConfig = Except.ok (ε := Exn) taggedDb ∧ 2 ^ 61 + taggedDb.index.size < 2 ^ 64 ∧
      taggedDb.Resolves (predEq 0 (attrTag [120])) [] ∧
      ¬ (Throws (taggedDb.searchWhere onePlace [3] (2 ^ 61) (predEq 0 (attrTag [120]))) ↔
        taggedDb.Unresolved (predEq 0 (attrTag [120]))) := by
  refine ⟨rfl, by decide, ⟨_, rfl, rfl⟩, fun h => ?_⟩
  refine h.1 ?_ ⟨[], _, rfl, rfl⟩
  rw [searchWhere, if_neg (by decide)]
  exact ((shaped_new new_taggedDb rfl).throws_reportWhere [3]).2 (.inr (by decide))

end System

end Database

end Vdb
