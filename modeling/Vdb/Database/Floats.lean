import Vdb.Database.Ranges
import Vdb.Lib.Ieee
import Vdb.Metadata.TreeIndex

/-!
# Ranges of floating-point values

How the keys of Float64 values compare with the values, and what a range predicate on an indexed
Float64 column finds.

* `sortableKey_float` : the keys are in the order of the values, but `-0` comes before `+0`.
* `VDB.floats_run` : where no call has been cut short, a range finds the rows with a value between
  its bounds, unless a bound is one zero and a row has the other.
-/

namespace Vdb

open Ieee

namespace Metadata

theorem toNat_sortableKey_float (x : UInt64) : (sortableKey .float64 x).toNat =
    if x.toNat < 2 ^ 63 then 2 ^ 63 + x.toNat else 2 ^ 64 - 1 - x.toNat := by
  have hlt := x.toNat_lt
  have hsign : x >>> 63 ≠ 0 ↔ 2 ^ 63 ≤ x.toNat := by
    rw [ne_eq, ← UInt64.toNat_inj, UInt64.toNat_shiftRight]
    change ¬ (x.toNat >>> 63 = 0) ↔ _
    rw [Nat.shiftRight_eq_div_pow]
    omega
  rw [sortableKey, if_neg (by decide)]
  by_cases h : x.toNat < 2 ^ 63
  · rw [if_neg (mt hsign.1 (not_le.2 h)), if_pos h, UInt64.toNat_xor]
    exact xor_two_pow h
  · have hnot : x ^^^ 0xFFFFFFFFFFFFFFFF = ~~~x := UInt64.eq_of_toBitVec_eq BitVec.xor_allOnes
    rw [if_pos (hsign.2 (not_lt.1 h)), if_neg h, hnot, UInt64.toNat_not]
    rfl

/-- The keys of two numbers are in their order, but for the two zeros. -/
theorem sortableKey_float {x y : UInt64} : sortableKey .float64 x ≤ sortableKey .float64 y ↔
    value x ≤ value y ∧ ¬ (x = posZero ∧ y = negZero) := by
  have hx := x.toNat_lt
  have hy := y.toNat_lt
  rw [UInt64.le_iff_toNat_le, toNat_sortableKey_float, toNat_sortableKey_float, ← UInt64.toNat_inj,
    ← UInt64.toNat_inj, value_eq, value_eq]
  change _ ↔ _ ∧ ¬ (x.toNat = 0 ∧ y.toNat = 2 ^ 63)
  have hpos := @units_le x.toNat y.toNat
  have hneg := @units_le (y.toNat - 2 ^ 63) (x.toNat - 2 ^ 63)
  have hx0 := @units_le x.toNat 0
  have hy0 := @units_le (y.toNat - 2 ^ 63) 0
  rw [show units (0 / 2 ^ 52) (0 % 2 ^ 52) = 0 from rfl] at hx0 hy0
  split_ifs with h1 h2 h2 <;> omega

namespace MetadataStore

variable {ι : Type} [ColumnIndex ι] (s : MetadataStore ι)

/-- `range_`: the rows it calls `emit` for. -/
def rangeKeys (attr : ℕ) (lo hi : UInt64) : List InternalId :=
  match (s.column attr).index with
  | none => []
  | some t => ColumnIndex.range t lo hi

/-- `range` between two doubles. -/
def rangeFloat (attr : ℕ) (lo hi : UInt64) : List InternalId :=
  s.rangeKeys attr (sortableKey .float64 lo) (sortableKey .float64 hi)

end MetadataStore

end Metadata

namespace Database

open Metadata

namespace VDB

variable {ι δ : Type} [ColumnIndex ι] [Distance δ] {K : Kernels δ} {db db₀ : VDB ι}
  {config : VDBConfig} {a : ℕ} {lo hi : UInt64} {spec : AttrSpec}

/-- `range`, and `resolve` of a range, find the rows with a value between the bounds, once each. -/
structure FindsBetween (db : VDB ι) (a : ℕ) (lo hi : UInt64) : Prop where
  nodup : (db.metadata.rangeFloat a lo hi).Nodup
  mem : ∀ i, i ∈ db.metadata.rangeFloat a lo hi ↔
    i ∈ db.liveIds ∧ ∃ v, db.metadata.get i a = attrFloat v ∧ Le lo v ∧ Le v hi
  resolve : db.metadata.resolve (predRange a (attrFloat lo) (attrFloat hi)) db.deleted =
    .ok ⟨predRange a (attrFloat lo) (attrFloat hi), some (db.metadata.rangeFloat a lo hi)⟩

omit [ColumnIndex ι] in
/-- A bound is a zero, and a live row with a value between the bounds has the other one, on the
wrong side of it. -/
def MissesZero (db : VDB ι) (a : ℕ) (lo hi : UInt64) : Prop :=
  ∃ i ∈ db.liveIds,
    (lo = posZero ∧ db.metadata.get i a = attrFloat negZero ∧ Le negZero hi) ∨
      (hi = negZero ∧ db.metadata.get i a = attrFloat posZero ∧ Le lo posZero)

/-- **A range of floating-point numbers** is exact but for the two zeros. -/
theorem floats_run [LawfulColumnIndex ι] (hnew : VDB.new config = .ok db₀) (ops : List Op)
    (h : Run.Along (apply K) (fun db op => db.Steps K op) db₀ ops)
    (ha : config.schema[a]? = some spec) (hindexed : spec.indexed = true)
    (hfloat : spec.type = .float64) (hlo : ¬ IsNaN lo) (hhi : ¬ IsNaN hi) :
    let db := ops.foldl (apply K) db₀
    (∀ i ∈ db.liveIds, ∀ v, db.metadata.get i a = attrFloat v → ¬ IsNaN v) →
      (db.FindsBetween a lo hi ↔ ¬ db.MissesZero a lo hi) := by
  obtain ⟨es, hfollows⟩ := keyed_run hnew ops h
  generalize ops.foldl (apply K) db₀ = db at hfollows
  intro db' hnum
  obtain ⟨htype, hn, t, ht, hhas⟩ := hfollows.has_pairs ha hindexed
  rw [hfloat] at htype
  have hids : db.metadata.rangeFloat a lo hi =
      ColumnIndex.range t (sortableKey .float64 lo) (sortableKey .float64 hi) := by
    unfold MetadataStore.rangeFloat MetadataStore.rangeKeys
    rw [ht]
  obtain ⟨hnodup, hmem⟩ := mem_range hhas (sortableKey .float64 lo) (sortableKey .float64 hi)
  rw [← hids, htype] at hmem
  -- what is found, by the values
  have hfound : ∀ i, i ∈ db.metadata.rangeFloat a lo hi ↔ i ∈ db.liveIds ∧
      ∃ v, db.metadata.get i a = attrFloat v ∧ (Le lo v ∧ Le v hi) ∧
        ¬ (lo = posZero ∧ v = negZero) ∧ ¬ (v = posZero ∧ hi = negZero) := by
    refine fun i => (hmem i).trans (and_congr_right fun hlive => ?_)
    constructor
    · rintro ⟨hnull, hkeys⟩
      have hget := get_numeric hn hnull
      rw [htype] at hget
      rw [sortableKey_float, sortableKey_float] at hkeys
      have hv := hnum i hlive _ hget
      exact ⟨_, hget, ⟨⟨hlo, hv, hkeys.1.1⟩, hv, hhi, hkeys.2.1⟩, hkeys.1.2, hkeys.2.2⟩
    · rintro ⟨v, hv, ⟨hlov, hvhi⟩, hzero⟩
      rw [hv]
      exact ⟨rfl, sortableKey_float.2 ⟨hlov.2.2, hzero.1⟩, sortableKey_float.2 ⟨hvhi.2.2, hzero.2⟩⟩
  constructor
  · rintro ⟨-, hexact, -⟩ ⟨i, hlive, hmiss⟩
    have hall : ∀ v, db.metadata.get i a = attrFloat v → Le lo v ∧ Le v hi →
        ¬ (lo = posZero ∧ v = negZero) ∧ ¬ (v = posZero ∧ hi = negZero) := by
      intro v hv hbetween
      obtain ⟨-, w, hw, -, hzero⟩ := (hfound i).1 ((hexact i).2 ⟨hlive, v, hv, hbetween⟩)
      obtain rfl : v = w := congrArg AttrValue.raw (hv.symm.trans hw)
      exact hzero
    rcases hmiss with ⟨rfl, hv, hle⟩ | ⟨rfl, hv, hle⟩
    · exact (hall _ hv ⟨by decide, hle⟩).1 ⟨rfl, rfl⟩
    · exact (hall _ hv ⟨hle, by decide⟩).2 ⟨rfl, rfl⟩
  · intro hmiss
    refine ⟨hids ▸ hnodup, fun i => (hfound i).trans (and_congr_right fun hlive => ?_), ?_⟩
    · refine exists_congr fun v => and_congr_right fun hv => and_iff_left_of_imp ?_
      rintro ⟨hlov, hvhi⟩
      refine ⟨?_, ?_⟩
      · rintro ⟨rfl, rfl⟩
        exact hmiss ⟨i, hlive, .inl ⟨rfl, hv, hvhi⟩⟩
      · rintro ⟨rfl, rfl⟩
        exact hmiss ⟨i, hlive, .inr ⟨rfl, hv, hlov⟩⟩
    · have hresolve := resolve_range hn ht (attrFloat lo) (attrFloat hi) htype.symm htype.symm
      rw [htype] at hresolve
      rw [hresolve, hids]
      rfl

/-- One indexed Float64 attribute. -/
def floatConfig : VDBConfig :=
  { kind := .brute, dim := 1, schema := [{ name := [97], type := .float64, indexed := true }] }

def floatDb : VDB (TreeIndex 1) where
  config := floatConfig
  index := Index.make floatConfig
  metadata :=
    { schema := floatConfig.schema, fingerprint := computeFingerprint floatConfig.schema, rows := 0
      columns := floatConfig.schema.map Column.new, payload := [] }

/-- A row with the value `-0`. -/
def insertNegZero : List Op := [.insert [1] { attrs := [attrFloat negZero] }]

theorem finds_negZero : let db := insertNegZero.foldl (apply System.onePlace) floatDb
    db.FindsBetween 0 negZero posZero ↔ ¬ db.MissesZero 0 negZero posZero := by
  have hnew : VDB.new floatConfig = .ok floatDb := rfl
  refine floats_run (K := System.onePlace) hnew insertNegZero
    ⟨⟨.inl (by decide +kernel), nofun⟩, trivial⟩ (show floatConfig.schema[0]? = some _ from rfl)
    rfl rfl (by decide) (by decide) ?_
  intro i hi v hv
  obtain rfl : i = 0 := by
    have hlive : (insertNegZero.foldl (apply System.onePlace) floatDb).liveIds = [0] := by
      decide +kernel
    rw [hlive] at hi
    exact List.mem_singleton.1 hi
  obtain rfl : negZero = v := congrArg AttrValue.raw
    ((show attrFloat negZero = _ by decide +kernel).trans hv)
  decide

/-- The row is not found between `+0` and `+0`, which `-0` is. -/
theorem negZero_missed :
    Le posZero negZero ∧ Le negZero posZero ∧
      (insertNegZero.foldl (apply System.onePlace) floatDb).metadata.get 0 0 = attrFloat negZero ∧
      ¬ (insertNegZero.foldl (apply System.onePlace) floatDb).FindsBetween 0 posZero posZero := by
  refine ⟨by decide, by decide, by decide +kernel, fun h => ?_⟩
  have hfound := (h.mem 0).2 ⟨by decide +kernel, negZero, by decide +kernel, by decide, by decide⟩
  have hnone : (insertNegZero.foldl (apply System.onePlace) floatDb).metadata.rangeFloat 0
      posZero posZero = [] := by decide +kernel
  rw [hnone] at hfound
  cases hfound

end VDB

end Database

end Vdb
