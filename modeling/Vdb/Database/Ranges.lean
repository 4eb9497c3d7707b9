import Vdb.Database.Follows

/-!
# The indexes of a database

What the B+-trees of a database hold, taken as multisets of pairs, after any sequence of calls.
Nothing is asked of the calls but that no `assert` fails: they may throw, their values may be
anything, and the external ids may have wrapped, so that two live rows have the same one.

* `VDB.pairs_run` : a tree holds one pair for each live row with a value, and a range predicate on
  an Int64 column finds each row with a value between the bounds once.
-/

namespace Vdb

namespace Database

open Metadata

namespace VDB

/-- The pairs the index of a column should hold: one for each live row with a value. -/
def pairs {ι : Type} (db : VDB ι) (a : ℕ) : Multiset (UInt64 × InternalId) :=
  ((db.liveIds.filter fun i => !(db.metadata.get i a).isNull).map fun i =>
    (sortableKey (db.metadata.column a).type (db.metadata.get i a).raw, i) :
      List (UInt64 × InternalId))

section Runs

variable {ι δ : Type} [ColumnIndex ι] [Distance δ] {K : Kernels δ} {db db₀ : VDB ι}
  {config : VDBConfig} {es : List Entry} {op : Op} {a : ℕ} {spec : AttrSpec}

/-- The call fails no `assert`, and a snapshot fits the widths it is written in. -/
def Performs (K : Kernels δ) (db : VDB ι) (op : Op) : Prop :=
  ¬ (db.call K op).Aborted ∧ ∀ lsn, op = .reload lsn → db.WordSized lsn

instance (K : Kernels δ) (db : VDB ι) (op : Op) : Decidable (db.Performs K op) :=
  match op with
  | .reload lsn => decidable_of_iff (db.WordSized lsn)
      ⟨fun h => ⟨id, fun _ he => by cases he; exact h⟩, fun h => h.2 lsn rfl⟩
  | .insert vec rec => decidable_of_iff (¬ (db.call K (.insert vec rec)).Aborted)
      ⟨fun h => ⟨h, nofun⟩, And.left⟩
  | .insertReserved ext vec rec =>
    decidable_of_iff (¬ (db.call K (.insertReserved ext vec rec)).Aborted)
      ⟨fun h => ⟨h, nofun⟩, And.left⟩
  | .remove ext => decidable_of_iff (¬ (db.call K (.remove ext)).Aborted)
      ⟨fun h => ⟨h, nofun⟩, And.left⟩
  | .update ext vec rec => decidable_of_iff (¬ (db.call K (.update ext vec rec)).Aborted)
      ⟨fun h => ⟨h, nofun⟩, And.left⟩
  | .setMetadata ext rec => decidable_of_iff (¬ (db.call K (.setMetadata ext rec)).Aborted)
      ⟨fun h => ⟨h, nofun⟩, And.left⟩
  | .compact => decidable_of_iff (¬ (db.call K .compact).Aborted) ⟨fun h => ⟨h, nofun⟩, And.left⟩

/-- Whether the schema declares an index for the column. -/
def indexedAt (schema : List AttrSpec) (a : ℕ) : Bool :=
  ((schema[a]?).map AttrSpec.indexed).getD false

variable [LawfulColumnIndex ι]

/-- What is known of the columns along a run. -/
def KeyedBy (config : VDBConfig) (a : ℕ) (c : Column ι) (rows : List ColRow) : Prop :=
  c.Keyed (indexedAt config.schema a) rows

omit [Distance δ] in
theorem follows_new (hnew : VDB.new config = .ok db) :
    db.Follows (KeyedBy config) config [] := by
  refine follows_start (fun a spec ha => ?_) hnew
  have hindexed : indexedAt config.schema a = spec.indexed := by
    rw [indexedAt, ha]
    rfl
  unfold KeyedBy
  rw [hindexed]
  exact Column.keyed_new spec

omit [Distance δ] in
/-- What a reload makes of a column that is known by its index. -/
theorem keyedBy_reread {c : Column ι} {rows : List ColRow} (hspec : config.schema[a]? = some spec)
    (h : KeyedBy config a c rows) :
    KeyedBy config a (c.reread (Column.new spec)).clearDerived (Column.unpublished rows) :=
  Column.Keyed.reread h (by rw [indexedAt, hspec]; rfl)

theorem Follows.keyed (h : ∃ es, db.Follows (KeyedBy config) config es) (hs : db.Steps K op) :
    ∃ es, (db.apply K op).Follows (KeyedBy config) config es :=
  Follows.step (Column.invariant_keyed (indexedAt config.schema)) (fun _ _ _ hc => hc.sized)
    (fun _ hspec hc => keyedBy_reread hspec hc) (fun hc hi he => hc.rebuildRow hi he) h hs

/-- Every database that calls reach holds some entries, where no call is cut short. -/
theorem keyed_run (hnew : VDB.new config = .ok db₀) (ops : List Op)
    (h : Run.Along (apply K) (fun db op => db.Steps K op) db₀ ops) :
    ∃ es, (ops.foldl (apply K) db₀).Follows (KeyedBy config) config es :=
  Run.Along.invariant (I := fun db : VDB ι => ∃ es, db.Follows (KeyedBy config) config es)
    (fun _ _ h hs => Follows.keyed h hs) ⟨[], follows_new hnew⟩ h

omit [Distance δ] in
/-- The index of a column holds its pairs. -/
theorem Follows.has_pairs (h : db.Follows (KeyedBy config) config es)
    (ha : config.schema[a]? = some spec)
    (hi : spec.indexed = true) :
    (db.metadata.column a).type = spec.type ∧ (db.metadata.column a).Numeric ∧
      ∃ t, (db.metadata.column a).index = some t ∧ LawfulColumnIndex.Has t (db.pairs a) := by
  obtain ⟨c, hc⟩ : ∃ c, db.metadata.columns[a]? = some c := by
    refine ⟨_, List.getElem?_eq_getElem ?_⟩
    rw [h.metadata.columns]
    exact (List.getElem?_eq_some_iff.1 ha).1
  rw [MetadataStore.column_of_getElem hc]
  obtain ⟨spec', hs, htype⟩ := h.metadata.types a c hc
  rw [ha] at hs
  cases hs
  have hkeyed : c.Keyed spec.indexed ((es.map Entry.row).map (Row.col a)) := by
    have := h.metadata.column a c hc
    rwa [KeyedBy, indexedAt, ha] at this
  have hn : c.Numeric := by
    unfold Column.Numeric
    rw [htype]
    exact checkSchema_indexed h.metadata.checked ha hi
  obtain ⟨t, ht⟩ := Option.isSome_iff_exists.1 (hkeyed.indexed.trans hi)
  refine ⟨htype, hn, t, ht, ?_⟩
  have hhas := hkeyed.index hn t ht
  rw [hkeyed.keysOf_eq hn (fun i => !db.deleted.getD i false) fun i r hr => ?_] at hhas
  · unfold VDB.pairs VDB.liveIds
    rw [List.filter_filter, MetadataStore.column_of_getElem hc]
    unfold MetadataStore.get
    rw [MetadataStore.column_of_getElem hc]
    rwa [show ((es.map Entry.row).map (Row.col a)).length = db.intToExt.length by
      simp [h.ids]] at hhas
  · rw [h.deleted]
    obtain ⟨r₀, hr₀, rfl⟩ := Option.map_eq_some_iff.1 ((List.getElem?_map ..).symm.trans hr)
    obtain ⟨e, he, rfl⟩ := Option.map_eq_some_iff.1 ((List.getElem?_map ..).symm.trans hr₀)
    rw [MetadataStore.getD_of_getElem (by rw [List.getElem?_map, he]; rfl), Bool.not_not]
    rfl

omit [Distance δ] [LawfulColumnIndex ι] in
theorem resolve_range {t : ι} (hn : (db.metadata.column a).Numeric)
    (ht : (db.metadata.column a).index = some t) (lo hi : AttrValue)
    (hlo : lo.type = (db.metadata.column a).type) (hhi : hi.type = (db.metadata.column a).type) :
    db.metadata.resolve (predRange a lo hi) db.deleted =
      .ok ⟨predRange a lo hi, some (ColumnIndex.range t
        (sortableKey (db.metadata.column a).type lo.raw)
        (sortableKey (db.metadata.column a).type hi.raw))⟩ := by
  have hnumeric : ¬ ((db.metadata.column a).type ≠ .int64 ∧
    (db.metadata.column a).type ≠ .float64) :=
    fun h => hn.elim h.1 h.2
  have hbounds : ¬ (lo.type ≠ (db.metadata.column a).type ∨
    hi.type ≠ (db.metadata.column a).type) :=
    fun h => h.elim (· hlo) (· hhi)
  unfold MetadataStore.resolve predRange
  dsimp only
  rw [if_neg hnumeric, if_neg hbounds, ht]
  rfl

omit [Distance δ] in
/-- What a range of an index answers, in some order. -/
theorem range_perm {t : ι} (hhas : LawfulColumnIndex.Has t (db.pairs a)) (lo hi : UInt64) :
    (ColumnIndex.range t lo hi).Perm
      ((db.liveIds.filter fun i => !(db.metadata.get i a).isNull).filter fun i =>
        decide (lo ≤ sortableKey (db.metadata.column a).type (db.metadata.get i a).raw ∧
          sortableKey (db.metadata.column a).type (db.metadata.get i a).raw ≤ hi)) := by
  rw [← Multiset.coe_eq_coe, LawfulColumnIndex.range lo hi hhas, VDB.pairs, Multiset.filter_coe,
    Multiset.map_coe, List.filter_map, List.map_map]
  exact congrArg _ (List.map_id'' (fun _ => rfl) _)

omit [Distance δ] in
/-- A range finds each live row with a value between its bounds once. -/
theorem mem_range {t : ι} (hhas : LawfulColumnIndex.Has t (db.pairs a)) (lo hi : UInt64) :
    (ColumnIndex.range t lo hi).Nodup ∧ ∀ i, i ∈ ColumnIndex.range t lo hi ↔
      i ∈ db.liveIds ∧ (db.metadata.get i a).isNull = false ∧
        lo ≤ sortableKey (db.metadata.column a).type (db.metadata.get i a).raw ∧
        sortableKey (db.metadata.column a).type (db.metadata.get i a).raw ≤ hi := by
  have hperm := range_perm hhas lo hi
  refine ⟨hperm.nodup_iff.2 (((List.nodup_range.filter _).filter _).filter _), fun i => ?_⟩
  rw [hperm.mem_iff, List.mem_filter, List.mem_filter, and_assoc, decide_eq_true_iff,
    Bool.not_eq_true']

omit [ColumnIndex ι] [Distance δ] [LawfulColumnIndex ι] in
/-- A value of a column that can have an index. -/
theorem get_numeric (hn : (db.metadata.column a).Numeric) {i : InternalId}
    (hnull : (db.metadata.get i a).isNull = false) :
    db.metadata.get i a =
      { type := (db.metadata.column a).type, raw := (db.metadata.get i a).raw } := by
  have htypes : (db.metadata.column a).type ≠ .tag ∧ (db.metadata.column a).type ≠ .text := by
    rcases hn with h | h <;> simp [h]
  unfold MetadataStore.get Column.get at hnull ⊢
  rw [if_neg htypes.1, if_neg htypes.2] at hnull ⊢
  by_cases hp : (db.metadata.column a).isPresent i = true
  · rw [if_neg (not_not.2 hp)]
  · rw [if_pos hp] at hnull
    cases hnull

variable [TotalColumnIndex ι]

/-- Where no column index throws, **one call** keeps the rows, whether it returns or throws. -/
theorem Follows.apply (h : ∃ es, db.Follows (KeyedBy config) config es) (hp : db.Performs K op) :
    ∃ es, (db.apply K op).Follows (KeyedBy config) config es := by
  have hsettles : db.Settles K op := by
    obtain ⟨es, hfollows⟩ := h
    exact hfollows.settles (Column.invariant_keyed (indexedAt config.schema)) hp.1
  refine Follows.keyed h ⟨hsettles, fun lsn hop => ⟨hp.2 lsn hop, ?_⟩⟩
  obtain ⟨m, hm⟩ := db.metadata.reread.rebuildDerivedState_returns db.deleted
  unfold Rebuilds
  rw [hm]
  trivial

/-- Where no column index throws, every database that calls reach holds some entries. -/
theorem follows_run (hnew : VDB.new config = .ok db₀) (ops : List Op)
    (h : Run.Along (apply K) (fun db op => db.Performs K op) db₀ ops) :
    ∃ es, (ops.foldl (apply K) db₀).Follows (KeyedBy config) config es :=
  Run.Along.invariant (I := fun db : VDB ι => ∃ es, db.Follows (KeyedBy config) config es)
    (fun _ _ h hp => Follows.apply h hp) ⟨[], follows_new hnew⟩ h

/-- **An index** holds one pair for each live row with a value, after any calls, and a range on an
Int64 column finds each row with a value in it once. -/
theorem pairs_run (hnew : VDB.new config = .ok db₀) (ops : List Op)
    (h : Run.Along (apply K) (fun db op => db.Performs K op) db₀ ops)
    (ha : config.schema[a]? = some spec) (hi : spec.indexed = true) :
    let db := ops.foldl (apply K) db₀
    (∃ t, (db.metadata.column a).index = some t ∧ LawfulColumnIndex.Has t (db.pairs a)) ∧
      (spec.type = .int64 → ∀ lo hi : Int64, ∃ ids,
        db.metadata.resolve (predRange a (attrInt lo) (attrInt hi)) db.deleted =
          .ok ⟨predRange a (attrInt lo) (attrInt hi), some ids⟩ ∧ ids.Nodup ∧
        ∀ i, i ∈ ids ↔ i ∈ db.liveIds ∧ ∃ v, db.metadata.get i a = attrInt v ∧ lo ≤ v ∧
            v ≤ hi) := by
  obtain ⟨es, hfollows⟩ := follows_run hnew ops h
  generalize ops.foldl (apply K) db₀ = db at hfollows
  obtain ⟨htype, hn, t, ht, hhas⟩ := hfollows.has_pairs ha hi
  refine ⟨⟨t, ht, hhas⟩, fun hint lo hi => ?_⟩
  rw [hint] at htype
  obtain ⟨hnodup, hmem⟩ := mem_range hhas (sortableKey .int64 lo.toUInt64)
    (sortableKey .int64 hi.toUInt64)
  have hresolve := resolve_range hn ht (attrInt lo) (attrInt hi) htype.symm htype.symm
  rw [htype] at hresolve hmem
  refine ⟨_, hresolve, hnodup, fun i => (hmem i).trans (and_congr_right fun _ => ?_)⟩
  constructor
  · rintro ⟨hnull, hlo, hhi⟩
    have hget := get_numeric hn hnull
    rw [htype, ← UInt64.toUInt64_toInt64 (db.metadata.get i a).raw] at hget
    rw [hget] at hlo hhi
    exact ⟨_, hget, sortableKey_le.1 hlo, sortableKey_le.1 hhi⟩
  · rintro ⟨v, hv, hlo, hhi⟩
    rw [hv]
    exact ⟨rfl, sortableKey_le.2 hlo, sortableKey_le.2 hhi⟩

end Runs

/-- One indexed Int64 attribute. -/
def rangedConfig : VDBConfig :=
  { kind := .brute, dim := 1, schema := [{ name := [97], type := .int64, indexed := true }] }

def ranged : VDB PairIndex where
  config := rangedConfig
  index := Index.make rangedConfig
  metadata :=
    { schema := rangedConfig.schema, fingerprint := computeFingerprint rangedConfig.schema,
      rows := 0
      columns := rangedConfig.schema.map Column.new, payload := [] }

/-- Two rows are written, one is overwritten, and one removed after a reload. -/
def rangedOps : List Op :=
  [.insert [1] { attrs := [attrInt (-1)] }, .insert [2] { attrs := [attrInt 5] },
    .setMetadata 0 { attrs := [attrInt 7] }, .reload 3, .remove 1]

theorem pairs_ranged :
    let db := rangedOps.foldl (apply System.onePlace) ranged
    (∃ t, (db.metadata.column 0).index = some t ∧ LawfulColumnIndex.Has t (db.pairs 0)) ∧
      ∀ lo hi : Int64, ∃ ids,
        db.metadata.resolve (predRange 0 (attrInt lo) (attrInt hi)) db.deleted =
          .ok ⟨predRange 0 (attrInt lo) (attrInt hi), some ids⟩ ∧ ids.Nodup ∧
        ∀ i, i ∈ ids ↔
          i ∈ db.liveIds ∧ ∃ v, db.metadata.get i 0 = attrInt v ∧ lo ≤ v ∧ v ≤ hi := by
  have hnew : VDB.new rangedConfig = .ok ranged := rfl
  obtain ⟨hpairs, hranges⟩ := pairs_run (K := System.onePlace) hnew rangedOps
    ⟨by decide +kernel, by decide +kernel, by decide +kernel, by decide +kernel, by decide +kernel,
      trivial⟩ (show rangedConfig.schema[0]? = some _ from rfl) rfl
  exact ⟨hpairs, hranges rfl⟩

end VDB

end Database

end Vdb
