import Vdb.Database.Floats
import Vdb.Database.Matches

/-!
# Allowlists

The allowlist of a predicate is read off the lists of the column, which keep the old codes of a row
that is overwritten, and name a row again that is overwritten with a value it has had.

* `VDB.equalities_run` : as long as no row is overwritten that a list names, an equality yields the
  rows that match, once each.
* `VDB.delivers_run` : as long as no row is overwritten with a value whose list names it, a search
  over a Brute index finds as many rows as match, if it may.
-/

namespace Vdb

open Ieee

namespace Metadata

/-- A list names the rows that have the code, once each. -/
def PostRule.exact : PostRule where
  Allows _ b m := (b → m = 1) ∧ (¬ b → m = 0)
  absent _ := ⟨False.elim, fun _ => rfl⟩
  once _ := ⟨fun _ => rfl, fun h => absurd trivial h⟩

/-- A list names the rows that have the code, and none of its rows twice. -/
def PostRule.nodup : PostRule where
  Allows _ b m := (b → 0 < m) ∧ m ≤ 1
  absent _ := ⟨False.elim, Nat.zero_le 1⟩
  once _ := ⟨fun _ => Nat.one_pos, le_rfl⟩

namespace Column

variable {ι : Type}

/-- No list names the row. -/
def Unnamed (c : Column ι) (i : InternalId) (_ : AttrValue) : Prop := ∀ l ∈ c.postings, i ∉ l

/-- The lists of the codes of the value do not name the row. -/
def Unlisted (c : Column ι) (i : InternalId) (v : AttrValue) : Prop :=
  ∀ k ∈ c.codesOf v, i ∉ c.postings.getD k []

instance (c : Column ι) (i : InternalId) (v : AttrValue) : Decidable (c.Unnamed i v) :=
  inferInstanceAs (Decidable (∀ l ∈ c.postings, i ∉ l))

instance (c : Column ι) (i : InternalId) (v : AttrValue) : Decidable (c.Unlisted i v) :=
  inferInstanceAs (Decidable (∀ k ∈ c.codesOf v, i ∉ c.postings.getD k []))

theorem adheres_unnamed : Adheres (ι := ι) .exact Unnamed := by
  intro c n S i v _ _ _ hunnamed k
  refine allows_of_unnamed fun hi => ?_
  rcases lt_or_ge k c.postings.length with hk | hk
  · rw [List.getD_eq_getElem _ _ hk] at hi
    exact hunnamed _ (List.getElem_mem hk) hi
  · rw [List.getD_eq_default _ _ hk] at hi
    cases hi

theorem adheres_unlisted : Adheres (ι := ι) .nodup Unlisted := by
  intro c n S i v hposted hlt hi hunlisted k
  by_cases hk : k ∈ c.codesOf v
  · have hnone : c.timesPosted i k = 0 := List.count_eq_zero.2 (hunlisted k hk)
    rw [hnone, if_pos hk, eq_true hk]
    exact PostRule.nodup.once _
  · rw [if_neg hk, eq_false hk]
    exact ⟨False.elim, (hposted.posted i hlt hi k).2⟩

end Column

end Metadata

namespace Database

open Metadata

namespace VDB

variable {ι δ : Type} [ColumnIndex ι] [Distance δ] {K : Kernels δ} {config : VDBConfig}
  {X : Index → List Vec → Prop} {db db₀ : VDB ι} {pred : Predicate} {allowlist : List InternalId}
  {query : Vec} {k : ℕ}

/-- The allowlist names the live rows that meet the predicate, once each. -/
structure Exact (db : VDB ι) (pred : Predicate) (allowlist : List InternalId) : Prop where
  nodup : allowlist.Nodup
  mem : ∀ i, i ∈ allowlist ↔ i ∈ db.liveIds ∧ pred.holds (db.metadata.get i pred.attr) = true

omit [ColumnIndex ι] [Distance δ] in
/-- What the lists say by the rule is exact. -/
theorem exact_of_count (hlive : ∀ i ∈ allowlist, i ∈ db.liveIds)
    (hcount : ∀ i ∈ db.liveIds, PostRule.exact.Allows
      ((db.metadata.column pred.attr).isPresent i = true)
      (pred.holds (db.metadata.get i pred.attr) = true) (allowlist.count i)) :
    db.Exact pred allowlist := by
  constructor
  · refine List.nodup_iff_count_le_one.2 fun i => ?_
    by_cases hi : i ∈ allowlist
    · obtain ⟨hyes, hno⟩ := hcount i (hlive i hi)
      by_cases hholds : pred.holds (db.metadata.get i pred.attr) = true
      · exact (hyes hholds).le
      · exact (hno hholds).trans_le (Nat.zero_le 1)
    · rw [List.count_eq_zero.2 hi]
      exact Nat.zero_le 1
  · refine fun i => ⟨fun hi => ⟨hlive i hi, ?_⟩, fun ⟨hi, hholds⟩ => ?_⟩
    · by_contra hnot
      exact absurd ((hcount i (hlive i hi)).2 hnot) (List.count_pos_iff.2 hi).ne'
    · exact List.count_pos_iff.1 (by rw [(hcount i hi).1 hholds]; exact Nat.one_pos)

/-- **An equality** is exact as long as no row is overwritten that a list names. -/
theorem equalities_run (hnew : VDB.new config = .ok db₀) (ops : List Op) {attr : ℕ}
    (h : Run.Along (apply K) (fun db op => db.Writes K Column.Unnamed attr op) db₀ ops)
    {spec : AttrSpec} (hspec : config.schema[attr]? = some spec)
    (ht : spec.type = .tag ∨ spec.type = .bool) {v : AttrValue} (hv : v.type = spec.type) :
    let db := ops.foldl (apply K) db₀
    (db.metadata.column attr).dict.length ≤ 2 ^ 32 →
      ∃ allowlist, db.metadata.resolve (predEq attr v) db.deleted =
          .ok ⟨predEq attr v, some allowlist⟩ ∧ db.Exact (predEq attr v) allowlist := by
  intro db hfit
  have hX := Index.keeps_numbers K config
  have htype : (db.metadata.column attr).type = spec.type :=
    (sized_run hX hnew ops (h.mono fun _ _ hw => hw.leaves)).type_column hspec
  obtain ⟨allowlist, hresolve⟩ := db.metadata.resolve_equality (predEq attr v) rfl
    (show (db.metadata.column attr).type = .tag ∨ _ from htype ▸ ht)
    (hv.trans htype.symm) db.deleted
  refine ⟨allowlist, hresolve, ?_⟩
  obtain ⟨hlive, hcount⟩ := count_run hX Column.adheres_unnamed hnew ops h rfl hfit
    ⟨_, hresolve, rfl⟩
  exact exact_of_count hlive hcount

/-- A row is tagged, and then tagged otherwise. -/
def tagTwice (first second : Bytes) : List Op :=
  [.insert [1] { attrs := [attrTag first] }, .setMetadata 0 { attrs := [attrTag second] }]

/-- A row without a tag is tagged. -/
theorem equalities_tagged :
    let db := ([.insert [1] {}, .setMetadata 0 { attrs := [attrTag [97]] }] : List Op).foldl
      (apply System.onePlace) taggedDb
    ∃ allowlist, db.metadata.resolve (predEq 0 (attrTag [97])) db.deleted =
        .ok ⟨predEq 0 (attrTag [97]), some allowlist⟩ ∧
      db.Exact (predEq 0 (attrTag [97])) allowlist :=
  equalities_run (K := System.onePlace) new_taggedDb
    [.insert [1] {}, .setMetadata 0 { attrs := [attrTag [97]] }]
    ⟨by decide +kernel, by decide +kernel, trivial⟩
    (show taggedConfig.schema[0]? = some _ from rfl) (.inl rfl) rfl (by decide +kernel)

/-- The list of the first tag still names a row that is tagged otherwise. -/
theorem tagTwice_inexact :
    let db := (tagTwice [97] [98]).foldl (apply System.onePlace) taggedDb
    Run.Along (apply System.onePlace) (fun db op => db.Leaves System.onePlace op) taggedDb
        (tagTwice [97] [98]) ∧
      ¬ ∃ allowlist, db.metadata.resolve (predEq 0 (attrTag [97])) db.deleted =
          .ok ⟨predEq 0 (attrTag [97]), some allowlist⟩ ∧
        db.Exact (predEq 0 (attrTag [97])) allowlist := by
  intro db
  refine ⟨by decide +kernel, ?_⟩
  rintro ⟨allowlist, hresolve, hexact⟩
  have hlisted : (db.metadata.resolve (predEq 0 (attrTag [97])) db.deleted).map
      ResolvedPredicate.allowlist = .ok (some [0]) := by decide +kernel
  rw [hresolve] at hlisted
  cases hlisted
  have hholds := ((hexact.mem 0).1 (List.mem_singleton_self 0)).2
  exact absurd hholds (by decide +kernel)

/-! ### Enough rows -/

/-- There are no more rows in the list than in the index, and a search finds as many as match, if it
may, or more are asked for than its vector can hold. -/
structure Delivers (K : Kernels δ) (db : VDB ι) (query : Vec) (k : ℕ) (pred : Predicate)
    (allowlist : List InternalId) : Prop where
  fits : allowlist.length ≤ db.index.size
  finds : (∃ found, db.searchWhere K query k pred = .ok found ∧
    min k (db.matching pred).length ≤ found.length) ∨
      maxSize idBytes < k ∧ db.searchWhere K query k pred = .error reserveError

omit [ColumnIndex ι] [Distance δ] in
theorem nodup_matching : (db.matching pred).Nodup := (List.nodup_range.filter _).filter _

/-- A list without repetitions of live rows, that has every row that matches. -/
theorem Shaped.delivers (h : db.Shaped config) (hr : db.Resolves pred allowlist)
    (hnodup : allowlist.Nodup) (hlive : ∀ i ∈ allowlist, i ∈ db.liveIds)
    (hall : ∀ i ∈ db.matching pred, i ∈ allowlist) (query : Vec) (hk : 0 < k)
    (hroom : k + db.index.size < 2 ^ 64) : db.Delivers K query k pred allowlist := by
  have hsize : db.index.size = db.intToExt.length := by
    rw [h.ids, h.index]
    rfl
  obtain ⟨r, hr, hsome⟩ := hr
  obtain ⟨found, hfound, hfinds⟩ := h.finds_collectResolved (K := K) hroom hlive hnodup query
    r.predicate
  constructor
  · calc allowlist.length ≤ db.liveIds.length := (hnodup.subperm hlive).length_le
      _ ≤ db.index.size := by
        rw [hsize]
        exact (List.length_filter_le _ _).trans_eq List.length_range
  · have hsearch : db.searchWhere K query k pred = report idBytes k (.ok found) db.extOf := by
      rw [searchWhere, if_neg hk.ne', reportWhere, hr, ← hfound]
      obtain ⟨p, _⟩ := r
      cases hsome
      rfl
    rw [hsearch]
    by_cases hmax : maxSize idBytes < k
    · exact .inr ⟨hmax, report_full hmax⟩
    · refine .inl ⟨found.map db.extOf, report_ok (not_lt.1 hmax), ?_⟩
      have hlength := hfinds.nearest.length
      rw [List.length_map, List.length_map] at hlength
      rw [List.length_map, hlength]
      exact min_le_min_left k (nodup_matching.subperm hall).length_le

section Ranges

variable [LawfulColumnIndex ι] {es : List Entry} {v : AttrValue}

omit [ColumnIndex ι] [Distance δ] [LawfulColumnIndex ι] in
/-- The key of a value in a range is between the keys of the bounds, but for the two zeros. -/
theorem between_of_holds (hk : pred.kind = .range) (hholds : pred.holds v = true)
    (hzero : v.type = .float64 → ¬ (pred.lo.raw = posZero ∧ v.raw = negZero) ∧
      ¬ (v.raw = posZero ∧ pred.hi.raw = negZero)) :
    v.isNull = false ∧ sortableKey v.type pred.lo.raw ≤ sortableKey v.type v.raw ∧
      sortableKey v.type v.raw ≤ sortableKey v.type pred.hi.raw := by
  unfold Predicate.holds at hholds
  rw [hk] at hholds
  have hnull : ∀ {t : AttrType}, v.type = t → t ≠ .null → v.isNull = false := fun ht hn => by
    unfold AttrValue.isNull
    rw [ht]
    exact decide_eq_false hn
  cases ht : v.type with
  | int64 =>
    rw [ht] at hholds
    obtain ⟨hlo, hhi⟩ := of_decide_eq_true hholds
    rw [← sortableKey_le, UInt64.toUInt64_toInt64, UInt64.toUInt64_toInt64] at hlo hhi
    exact ⟨hnull ht (by decide), hlo, hhi⟩
  | float64 =>
    rw [ht] at hholds
    obtain ⟨hlo, hhi⟩ := of_decide_eq_true hholds
    obtain ⟨hlow, hhigh⟩ := hzero ht
    exact ⟨hnull ht (by decide), sortableKey_float.2 ⟨hlo.2.2, hlow⟩,
      sortableKey_float.2 ⟨hhi.2.2, hhigh⟩⟩
  | _ =>
    rw [ht] at hholds
    cases hholds

omit [Distance δ] in
/-- What a range finds in a database whose trees hold their pairs. -/
theorem Follows.ranged (h : db.Follows (KeyedBy config) config es) (hk : pred.kind = .range)
    (hr : db.Resolves pred allowlist) :
    allowlist.Nodup ∧ (∀ i ∈ allowlist, i ∈ db.liveIds) ∧
      (¬ db.MissesZero pred.attr pred.lo.raw pred.hi.raw →
        ∀ i ∈ db.matching pred, i ∈ allowlist) := by
  obtain ⟨r, hr, hsome⟩ := hr
  obtain ⟨hn, t, ht, rfl⟩ := MetadataStore.resolve_ranged hk hr hsome
  obtain ⟨spec, hspec, hindexed⟩ : ∃ spec, config.schema[pred.attr]? = some spec ∧
      spec.indexed = true := by
    have hlt : pred.attr < db.metadata.columns.length := by
      by_contra hle
      unfold MetadataStore.column at ht
      rw [List.getD_eq_default _ _ (not_lt.1 hle)] at ht
      cases ht
    have hc := List.getElem?_eq_getElem hlt
    obtain ⟨spec, hspec, -⟩ := h.metadata.types pred.attr _ hc
    refine ⟨spec, hspec, ?_⟩
    have hkeyed := h.metadata.column pred.attr _ hc
    unfold KeyedBy indexedAt at hkeyed
    rw [hspec] at hkeyed
    rw [MetadataStore.column_of_getElem hc] at ht
    exact hkeyed.indexed.symm.trans (congrArg Option.isSome ht)
  obtain ⟨-, -, t', ht', hhas⟩ := h.has_pairs hspec hindexed
  rw [ht] at ht'
  cases ht'
  obtain ⟨hnodup, hmem⟩ :=
    mem_range hhas (sortableKey (db.metadata.column pred.attr).type pred.lo.raw)
    (sortableKey (db.metadata.column pred.attr).type pred.hi.raw)
  refine ⟨hnodup, fun i hi => ((hmem i).1 hi).1, fun hmiss i hi => (hmem i).2 ?_⟩
  obtain ⟨hlive, hholds⟩ := List.mem_filter.1 hi
  have hbetween := between_of_holds hk hholds fun hfloat => ?_
  · have hget := get_numeric hn hbetween.1
    rw [congrArg AttrValue.type hget] at hbetween
    exact ⟨hlive, hbetween⟩
  · -- a row with the other zero would be missed
    have hvalue : db.metadata.get i pred.attr = attrFloat (db.metadata.get i pred.attr).raw := by
      have hnull : (db.metadata.get i pred.attr).isNull = false := by
        unfold AttrValue.isNull
        rw [hfloat]
        rfl
      have hget := get_numeric hn hnull
      rw [show (db.metadata.column pred.attr).type = .float64 from
        (congrArg AttrValue.type hget).symm.trans hfloat] at hget
      exact hget
    unfold Predicate.holds at hholds
    rw [hk, hfloat] at hholds
    obtain ⟨hlo, hhi⟩ := of_decide_eq_true hholds
    constructor
    · rintro ⟨hpos, hneg⟩
      rw [hneg] at hvalue hhi
      exact hmiss ⟨i, hlive, .inl ⟨hpos, hvalue, hhi⟩⟩
    · rintro ⟨hpos, hneg⟩
      rw [hpos] at hvalue hlo
      exact hmiss ⟨i, hlive, .inr ⟨hneg, hvalue, hlo⟩⟩

/-- What a call must do for the rows that match this predicate. -/
def Sustains (K : Kernels δ) (pred : Predicate) (db : VDB ι) (op : Op) : Prop :=
  match pred.kind with
  | .eq => db.Writes K Column.Unlisted pred.attr op
  | .range => db.Leaves K op ∧ db.Settles K op

/-- There are codes enough for the strings of the column, or no bound is a zero that misses the
other one. -/
def Tells (db : VDB ι) (pred : Predicate) : Prop :=
  match pred.kind with
  | .eq => (db.metadata.column pred.attr).dict.length ≤ 2 ^ 32
  | .range => ¬ db.MissesZero pred.attr pred.lo.raw pred.hi.raw

/-- **A search** under a predicate finds enough rows. -/
theorem delivers_run (hnew : VDB.new config = .ok db₀) (hbrute : config.kind = .brute)
    (ops : List Op) (h : Run.Along (apply K) (fun db op => db.Sustains K pred op) db₀ ops)
    (query : Vec) (hk : 0 < k) :
    let db := ops.foldl (apply K) db₀
    db.Tells pred → db.Resolves pred allowlist → k + db.index.size < 2 ^ 64 →
      db.Delivers K query k pred allowlist := by
  intro db htells hr hroom
  have hX : Index.Keeps K config (Index.Holding config) := Index.keeps_holding K hbrute
  have hleaves : Run.Along (apply K) (fun db op => db.Leaves K op) db₀ ops :=
      h.mono fun db op hs => by
    unfold Sustains at hs
    split at hs
    · exact hs.leaves
    · exact hs.1
  have hshaped : db.Shaped config :=
    (sized_run hX hnew ops hleaves).shaped hbrute fun _ _ _ hc => hc
  unfold Sustains at h
  unfold Tells at htells
  cases hkind : pred.kind with
  | eq =>
    simp only [hkind] at h htells
    obtain ⟨hlive, hcount⟩ := count_run hX Column.adheres_unlisted hnew ops h hkind htells hr
    refine hshaped.delivers hr ?_ hlive (fun i hi => ?_) query hk hroom
    · refine List.nodup_iff_count_le_one.2 fun i => ?_
      by_cases hi : i ∈ allowlist
      · exact (hcount i (hlive i hi)).2
      · rw [List.count_eq_zero.2 hi]
        exact Nat.zero_le 1
    · obtain ⟨hi, hholds⟩ := List.mem_filter.1 hi
      exact List.count_pos_iff.1 ((hcount i hi).1 hholds)
  | range =>
    simp only [hkind] at h htells
    obtain ⟨es, hfollows⟩ := keyed_run hnew ops (h.mono fun db op hs => ⟨hs.2, fun lsn hop => by
      obtain ⟨hl, -⟩ := hs
      subst hop
      exact hl.2⟩)
    obtain ⟨hnodup, hlive, hall⟩ := hfollows.ranged hkind hr
    exact hshaped.delivers hr hnodup hlive (hall htells) query hk hroom

end Ranges

theorem delivers_tagTwice :
    ((tagTwice [97] [98]).foldl (apply System.onePlace) taggedDb).Delivers System.onePlace [3] 1
      (predEq 0 (attrTag [98])) [0] := by
  have hfirst : taggedDb.Writes System.onePlace Column.Unlisted 0
      (.insert [1] { attrs := [attrTag [97]] }) := by decide +kernel
  have hsecond : (taggedDb.apply System.onePlace (.insert [1] { attrs := [attrTag [97]] })).Writes
      System.onePlace Column.Unlisted 0 (.setMetadata 0 { attrs := [attrTag [98]] }) := by
    decide +kernel
  have hfit : (((tagTwice [97] [98]).foldl (apply System.onePlace) taggedDb).metadata.column
      0).dict.length ≤ 2 ^ 32 := by decide +kernel
  have hrun : Run.Along (apply System.onePlace)
      (fun db op => db.Sustains System.onePlace (predEq 0 (attrTag [98])) op) taggedDb
      (tagTwice [97] [98]) := ⟨hfirst, hsecond, trivial⟩
  exact delivers_run new_taggedDb rfl (tagTwice [97] [98]) hrun [3] Nat.one_pos hfit
    ⟨_, rfl, by decide +kernel⟩ (by decide +kernel)

/-- A row is tagged twice with one tag: the list names it twice, and a search for one row, which
asks the index for no row at all, misses it. -/
theorem tagTwice_missed :
    let db := (tagTwice [97] [97]).foldl (apply System.onePlace) taggedDb
    Run.Along (apply System.onePlace) (fun db op => db.Leaves System.onePlace op) taggedDb
        (tagTwice [97] [97]) ∧
      db.Resolves (predEq 0 (attrTag [97])) [0, 0] ∧ 1 + db.index.size < 2 ^ 64 ∧
      ¬ [0, 0].length ≤ db.index.size ∧
      ¬ ∃ found, db.searchWhere System.onePlace [3] 1 (predEq 0 (attrTag [97])) = .ok found ∧
        min 1 (db.matching (predEq 0 (attrTag [97]))).length ≤ found.length := by
  intro db
  refine ⟨by decide +kernel, ⟨_, rfl, by decide +kernel⟩, by decide +kernel, by decide +kernel, ?_⟩
  rintro ⟨found, hfound, hmatching⟩
  have hnone : db.searchWhere System.onePlace [3] 1 (predEq 0 (attrTag [97])) = .ok [] := by
    decide +kernel
  rw [hnone] at hfound
  cases hfound
  exact absurd hmatching (by decide +kernel)

end VDB

end Database

end Vdb
