import Vdb.Database.Lists
import Vdb.Database.Search
import Vdb.Lib.Ieee

/-!
# The rows that match

Whether a value meets a predicate, and what the allowlist of a predicate has to do with the rows
that meet it.
-/

namespace Vdb

open Ieee

namespace Metadata

/-- The value meets the predicate. -/
def Predicate.holds (pred : Predicate) (v : AttrValue) : Bool :=
  match pred.kind, v.type with
  | .eq, .tag => decide (v.text = pred.eq.text)
  | .eq, .bool => v.asBool == pred.eq.asBool
  | .range, .int64 =>
    decide (pred.lo.raw.toInt64 ≤ v.raw.toInt64 ∧ v.raw.toInt64 ≤ pred.hi.raw.toInt64)
  | .range, .float64 => decide (Le pred.lo.raw v.raw ∧ Le v.raw pred.hi.raw)
  | _, _ => false

theorem Predicate.holds_carried (pred : Predicate) (v : AttrValue) :
    pred.holds v.carried = pred.holds v := by
  obtain ⟨type, raw, text⟩ := v
  unfold holds
  cases pred.kind <;> cases type <;> rfl

namespace MetadataStore

variable {ι : Type} [ColumnIndex ι] {s : MetadataStore ι} {c : Column ι} {pred : Predicate}
  {deleted : List Bool} {r : ResolvedPredicate} {v : AttrValue} {x : Cell}
  {allowlist : List InternalId}

/-- The code `resolve` looks for. -/
def eqCode (s : MetadataStore ι) (pred : Predicate) : Option ℕ :=
  if (s.column pred.attr).type = .tag then s.tagCode pred.attr pred.eq.text
  else some (if pred.eq.asBool then 1 else 0)

/-- What `resolve` makes of an equality. -/
theorem resolve_eq (hk : pred.kind = .eq) (hr : s.resolve pred deleted = .ok r) :
    ((s.column pred.attr).type = .tag ∨ (s.column pred.attr).type = .bool) ∧
      r.allowlist = some (match s.eqCode pred with
        | none => []
        | some k => ((s.column pred.attr).postings.getD k []).filter (isLive deleted)) := by
  unfold resolve at hr
  rw [hk] at hr
  dsimp only at hr
  by_cases htype : (s.column pred.attr).type ≠ .tag ∧ (s.column pred.attr).type ≠ .bool
  · rw [if_pos htype] at hr
    cases hr
  rw [if_neg htype] at hr
  by_cases heq : pred.eq.type ≠ (s.column pred.attr).type
  · rw [if_pos heq] at hr
    cases hr
  rw [if_neg heq] at hr
  refine ⟨?_, ?_⟩
  · by_contra hne
    exact htype (not_or.1 hne)
  · change (match s.eqCode pred with
      | none => (Except.ok ⟨pred, some []⟩ : Except Exn ResolvedPredicate)
      | some code => .ok ⟨pred, some ((s.postings pred.attr code).filter (isLive deleted))⟩) = .ok r
      at hr
    cases hcode : s.eqCode pred with
    | none =>
      rw [hcode] at hr
      cases hr
      rfl
    | some code =>
      rw [hcode] at hr
      cases hr
      rfl

/-- A value of the type of the column yields a list. -/
theorem resolve_equality (s : MetadataStore ι) (pred : Predicate) (hk : pred.kind = .eq)
    (ht : (s.column pred.attr).type = .tag ∨ (s.column pred.attr).type = .bool)
    (hv : pred.eq.type = (s.column pred.attr).type) (deleted : List Bool) :
    ∃ allowlist, s.resolve pred deleted = .ok ⟨pred, some allowlist⟩ := by
  unfold resolve
  rw [hk]
  dsimp only
  rw [if_neg fun hne => ht.elim hne.1 hne.2, if_neg (not_not.2 hv)]
  split
  · exact ⟨_, rfl⟩
  · exact ⟨_, rfl⟩

/-- What `resolve` makes of a range with a list of its rows. -/
theorem resolve_ranged (hk : pred.kind = .range) (hr : s.resolve pred deleted = .ok r)
    (hsome : r.allowlist = some allowlist) :
    (s.column pred.attr).Numeric ∧ ∃ t, (s.column pred.attr).index = some t ∧
      allowlist = ColumnIndex.range t (sortableKey (s.column pred.attr).type pred.lo.raw)
        (sortableKey (s.column pred.attr).type pred.hi.raw) := by
  unfold resolve at hr
  rw [hk] at hr
  dsimp only at hr
  by_cases htype : (s.column pred.attr).type ≠ .int64 ∧ (s.column pred.attr).type ≠ .float64
  · rw [if_pos htype] at hr
    cases hr
  rw [if_neg htype] at hr
  by_cases hbounds : pred.lo.type ≠ (s.column pred.attr).type ∨
      pred.hi.type ≠ (s.column pred.attr).type
  · rw [if_pos hbounds] at hr
    cases hr
  rw [if_neg hbounds] at hr
  cases hr
  refine ⟨by_contra fun hne => htype (not_or.1 hne), ?_⟩
  obtain ⟨t, ht, rfl⟩ := Option.map_eq_some_iff.1 hsome
  exact ⟨t, ht, rfl⟩

omit [ColumnIndex ι] in
/-- A stored value meets an equality exactly if it has the code. -/
theorem holds_iff (hk : pred.kind = .eq)
    (ht : (s.column pred.attr).type = .tag ∨ (s.column pred.attr).type = .bool)
    (hd : (s.column pred.attr).Dict) (hv : (s.column pred.attr).Stores x v) :
    pred.holds v = true ↔ ∃ k ∈ s.eqCode pred, k ∈ (s.column pred.attr).codesOf v := by
  by_cases hnull : v.isNull = true
  · -- a null value has no code, and meets nothing
    have htype : v.type = .null := of_decide_eq_true hnull
    rw [Column.codesOf_null _ hnull]
    unfold Predicate.holds
    rw [hk, htype]
    simp
  have htyped : v.type = (s.column pred.attr).type := hv.typed.resolve_left hnull
  unfold Predicate.holds eqCode Column.codesOf tagCode
  rw [hk, htyped, if_neg hnull]
  rcases ht with ht | ht
  · simp only [ht, if_true, decide_eq_true_iff]
    have hcode := hv.tag (Bool.eq_false_iff.2 hnull) ht
    constructor
    · intro htext
      exact ⟨_, htext ▸ hcode, by rw [hcode]; exact List.mem_singleton_self _⟩
    · rintro ⟨k, hk, hmem⟩
      have hsame : (s.column pred.attr).codes v.text = some k := Option.mem_toList.1 hmem
      exact Option.some.inj (((hd.codes _ _).1 hsame).symm.trans ((hd.codes _ _).1 hk))
  · simp only [ht, reduceCtorEq, if_false]
    unfold AttrValue.asBool
    rcases hv.bool ht with hraw | hraw <;> simp [hraw]

end MetadataStore

end Metadata

namespace Database

open Metadata

namespace VDB

variable {ι δ : Type} [ColumnIndex ι] [Distance δ] {K : Kernels δ} {config : VDBConfig}
  {X : Index → List Vec → Prop} {R : PostRule} {db db₀ : VDB ι} {pred : Predicate}
  {D : Column ι → InternalId → AttrValue → Prop} {allowlist : List InternalId} {op : Op}

/-- The live rows that meet the predicate. -/
def matching (db : VDB ι) (pred : Predicate) : List InternalId :=
  db.liveIds.filter fun i => pred.holds (db.metadata.get i pred.attr)

omit [ColumnIndex ι] [Distance δ] in
theorem isLive_iff {i : InternalId} : MetadataStore.isLive db.deleted i = true ↔ db.IsLive i := by
  unfold MetadataStore.isLive IsLive
  rw [Bool.and_eq_true, decide_eq_true_iff, Bool.not_eq_true']
  constructor
  · rintro ⟨hlt, hd⟩
    rw [List.getElem?_eq_getElem hlt]
    rw [List.getD_eq_getElem _ _ hlt] at hd
    exact congrArg some hd
  · intro hi
    obtain ⟨hlt, hd⟩ := List.getElem?_eq_some_iff.1 hi
    exact ⟨hlt, by rw [List.getD_eq_getElem _ _ hlt, hd]⟩

omit [ColumnIndex ι] [Distance δ] in
theorem Laid.mem_liveIds {P : ℕ → Column ι → ℕ → Prop} {S : InternalId → Prop}
    (h : db.Laid X P S config) {i : InternalId} : i ∈ db.liveIds ↔ db.IsLive i := by
  rw [← isLive_iff, liveIds, List.mem_filter, List.mem_range, h.ids, ← h.deleted,
    MetadataStore.isLive, Bool.and_eq_true, decide_eq_true_iff]

omit [ColumnIndex ι] [Distance δ] in
/-- The column of an attribute has the type that is declared. -/
theorem Laid.type_column {P : ℕ → Column ι → ℕ → Prop} {S : InternalId → Prop}
    (h : db.Laid X P S config) {attr : ℕ} {spec : AttrSpec}
    (hspec : config.schema[attr]? = some spec) :
    (db.metadata.column attr).type = spec.type := by
  obtain ⟨rows, -, hrows⟩ := h.metadata
  have hlt : attr < db.metadata.columns.length := by
    rw [hrows.columns]
    exact (List.getElem?_eq_some_iff.1 hspec).1
  obtain ⟨spec', hspec', htype⟩ := hrows.types attr _ (List.getElem?_eq_getElem hlt)
  rw [hspec] at hspec'
  cases hspec'
  rw [MetadataStore.column_of_getElem (List.getElem?_eq_getElem hlt)]
  exact htype

omit [ColumnIndex ι] [Distance δ] in
/-- Only a column of numbers has an index. -/
theorem Laid.unindexed {P : ℕ → Column ι → ℕ → Prop} {S : InternalId → Prop}
    (h : db.Laid X P S config) {attr : ℕ} (hn : ¬ (db.metadata.column attr).Numeric) :
    attr < config.schema.length ∧ ∀ spec, config.schema[attr]? = some spec →
      spec.indexed = false := by
  obtain ⟨rows, -, hrows⟩ := h.metadata
  have hlt : attr < config.schema.length := by
    by_contra hle
    refine hn ?_
    unfold MetadataStore.column
    rw [List.getD_eq_default _ _ (hrows.columns.trans_le (not_lt.1 hle))]
    exact .inl rfl
  refine ⟨hlt, fun spec hspec => Bool.eq_false_iff.2 fun hindexed => ?_⟩
  have hc := List.getElem?_eq_getElem (hrows.columns.symm ▸ hlt)
  obtain ⟨spec', hspec', htype⟩ := hrows.types attr _ hc
  rw [hspec] at hspec'
  cases hspec'
  rw [MetadataStore.column_of_getElem hc] at hn
  unfold Column.Numeric at hn
  rw [htype] at hn
  exact hn (checkSchema_indexed hrows.checked hspec hindexed)

omit [ColumnIndex ι] [Distance δ] in
/-- The lists of the column that is watched. -/
theorem Laid.posted {attr : ℕ} (h : db.Laid X (Column.Watches R attr db.IsLive) db.IsLive config)
    (hattr : attr < config.schema.length) (hfit : (db.metadata.column attr).dict.length ≤ 2 ^ 32) :
    (db.metadata.column attr).Posted R db.IsLive (· < db.vectors.length) db.vectors.length := by
  obtain ⟨c, hc⟩ : ∃ c, db.metadata.columns[attr]? = some c := by
    obtain ⟨rows, -, hrows⟩ := h.metadata
    exact ⟨_, List.getElem?_eq_getElem (hrows.columns.symm ▸ hattr)⟩
  rw [MetadataStore.column_of_getElem hc] at hfit ⊢
  exact ((h.metadata.column hc).2 rfl).posted hfit

omit [Distance δ] in
/-- The allowlist of an equality names a live row as often as the list of the code that the value
of the row must have. -/
theorem Laid.count_allowlist
    (h : db.Laid X (Column.Watches R pred.attr db.IsLive) db.IsLive config)
    (hattr : pred.attr < config.schema.length)
    (hfit : (db.metadata.column pred.attr).dict.length ≤ 2 ^ 32) (hk : pred.kind = .eq)
    (hr : db.Resolves pred allowlist) :
    (∀ i ∈ allowlist, db.IsLive i) ∧ ∀ i, db.IsLive i →
      R.Allows ((db.metadata.column pred.attr).isPresent i = true)
        (pred.holds (db.metadata.get i pred.attr) = true) (allowlist.count i) := by
  obtain ⟨r, hr, hsome⟩ := hr
  obtain ⟨ht, hlist⟩ := MetadataStore.resolve_eq hk hr
  rw [hsome] at hlist
  have hposted := h.posted hattr hfit
  -- whether a row has the code, by the value it holds
  have hholds : ∀ i, pred.holds (db.metadata.get i pred.attr) = true ↔
      ∃ k ∈ db.metadata.eqCode pred, (db.metadata.column pred.attr).Carries i k := fun i => by
    obtain ⟨v, hv⟩ := hposted.exists_stores i
    rw [← Predicate.holds_carried, MetadataStore.get, hv.get hposted.dict,
      MetadataStore.holds_iff hk ht hposted.dict hv]
    exact exists_congr fun k => and_congr_right fun _ => (hv.carries hposted.dict).symm
  cases hcode : db.metadata.eqCode pred with
  | none =>
    rw [hcode] at hlist
    obtain rfl := Option.some.inj hlist
    refine ⟨nofun, fun i _ => ?_⟩
    have hnot : ¬ pred.holds (db.metadata.get i pred.attr) = true := by
      rw [hholds, hcode]
      rintro ⟨k, hk, -⟩
      cases hk
    rw [eq_false hnot]
    exact R.absent _
  | some k =>
    rw [hcode] at hlist
    obtain rfl := Option.some.inj hlist
    refine ⟨fun i hi => isLive_iff.1 (List.mem_filter.1 hi).2, fun i hi => ?_⟩
    have hlt : i < db.vectors.length := h.deleted ▸ (List.getElem?_eq_some_iff.1 hi).1
    have hcarries : pred.holds (db.metadata.get i pred.attr) = true ↔
        (db.metadata.column pred.attr).Carries i k := by
      rw [hholds, hcode]
      exact ⟨fun ⟨j, hj, hcar⟩ => Option.some.inj hj ▸ hcar, fun hcar => ⟨k, rfl, hcar⟩⟩
    rw [List.count_filter (isLive_iff.2 hi), propext hcarries]
    exact hposted.posted i hlt hi k

/-- After any calls that keep the rule. -/
theorem count_run (hX : Index.Keeps K config X) (hD : Column.Adheres R D)
    (hnew : VDB.new config = .ok db₀) (ops : List Op)
    (h : Run.Along (apply K) (fun db op => db.Writes K D pred.attr op) db₀ ops)
    (hk : pred.kind = .eq) :
    let db := ops.foldl (apply K) db₀
    (db.metadata.column pred.attr).dict.length ≤ 2 ^ 32 → db.Resolves pred allowlist →
      (∀ i ∈ allowlist, i ∈ db.liveIds) ∧ ∀ i ∈ db.liveIds,
        R.Allows ((db.metadata.column pred.attr).isPresent i = true)
          (pred.holds (db.metadata.get i pred.attr) = true) (allowlist.count i) := by
  intro db hfit hr
  have hsized := sized_run hX hnew ops (h.mono fun _ _ hw => hw.leaves)
  have hn : ¬ (db.metadata.column pred.attr).Numeric := by
    obtain ⟨r, hresolve, -⟩ := hr
    obtain ⟨ht, -⟩ := MetadataStore.resolve_eq hk hresolve
    unfold Column.Numeric
    rcases ht with ht | ht <;> rw [ht] <;> decide
  obtain ⟨hattr, hplain⟩ := hsized.unindexed hn
  have hlaid := laid_run hX hplain hD hnew ops h
  obtain ⟨hlive, hcount⟩ := hlaid.count_allowlist hattr hfit hk hr
  exact ⟨fun i hi => hlaid.mem_liveIds.2 (hlive i hi),
    fun i hi => hcount i (hlaid.mem_liveIds.1 hi)⟩

end VDB

end Database

end Vdb
