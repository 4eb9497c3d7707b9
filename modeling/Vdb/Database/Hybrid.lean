import Vdb.Database.Basic
import Vdb.Lib.Selection
import Mathlib.Algebra.Order.Field.Basic
import Mathlib.Algebra.Order.Ring.Rat
import Mathlib.Data.Finset.Dedup
import Mathlib.Data.Finset.Lattice.Lemmas
import Mathlib.Tactic.Positivity

/-!
# Fusing two rankings

`rrf_fuse_` ranks the hits of two searches by the sum of `1 / (rrf_k + rank)` over the searches that
found them, with exact arithmetic in place of `double`.

* A hash map is the list of its pairs, in the order their keys were first seen.
* Sorting keeps the order of equal scores.

`fuses` says what comes out.
-/

namespace Vdb

namespace Database

open Selection

variable {δ σ : Type} {a b ids keys : List ExternalId} {rrfK : ℚ} {x y id : ExternalId} {n : ℕ}

/-! ### The code -/

/-- `score[id] += s`. -/
def addScore (score : List (ExternalId × ℚ)) (id : ExternalId) (s : ℚ) : List (ExternalId × ℚ) :=
  if id ∈ score.map Prod.fst then score.map fun e => if e.1 = id then (e.1, e.2 + s) else e
  else score ++ [(id, 0 + s)]

/-- The scores `fold` adds for a list of hits. -/
def foldScores (rrfK : ℚ) (score : List (ExternalId × ℚ)) (hits : List (Hit δ)) :
    List (ExternalId × ℚ) :=
  hits.zipIdx.foldl (fun score h => addScore score h.1.id (1 / (rrfK + (h.2 + 1 : ℕ)))) score

/-- `payload_of.emplace`: the first payload of an id stays. -/
def emplacePayload (payloads : List (ExternalId × Bytes)) (id : ExternalId) (payload : Bytes) :
    List (ExternalId × Bytes) :=
  if id ∈ payloads.map Prod.fst then payloads else payloads ++ [(id, payload)]

/-- The payloads `fold` records for a list of hits. -/
def foldPayloads (payloads : List (ExternalId × Bytes)) (hits : List (Hit δ)) :
    List (ExternalId × Bytes) :=
  hits.foldl (fun payloads h => emplacePayload payloads h.id h.payload) payloads

def rrfFuse (a : List (Hit δ)) (b : List (Hit σ)) (k : ℕ) (rrfK : ℚ) : List (Hit ℚ) :=
  let score := foldScores rrfK (foldScores rrfK [] a) b
  let payloads := foldPayloads (foldPayloads [] a) b
  let ranked := (score.insertionSort fun x y => y.2 ≤ x.2).take k
  ranked.map fun e => ⟨e.1, e.2, (payloads.lookup e.1).getD []⟩

/-! ### What it is for -/

/-- What a ranking gives an id, of the ranks from `n + 1` on. -/
def rankScore (rrfK : ℚ) (n : ℕ) (ids : List ExternalId) (x : ExternalId) : ℚ :=
  if x ∈ ids then 1 / (rrfK + (n + ids.idxOf x + 1 : ℕ)) else 0

/-- The sum over the two rankings. -/
def fusedScore (rrfK : ℚ) (a b : List ExternalId) (x : ExternalId) : ℚ :=
  rankScore rrfK 0 a x + rankScore rrfK 0 b x

/-- `x` stands before `y`. -/
def Before (ids : List ExternalId) (x y : ExternalId) : Prop :=
  ∃ i j : ℕ, i < j ∧ ids[i]? = some x ∧ ids[j]? = some y

/-- The hits are the `k` best of the ids of two rankings, the best first. -/
structure Fuses (rrfK : ℚ) (a b : List ExternalId) (k : ℕ) (out : List (Hit ℚ)) : Prop where
  length : out.length = min k (a.toFinset ∪ b.toFinset).card
  nodup : (out.map Hit.id).Nodup
  mem : ∀ hit ∈ out, hit.id ∈ a ∨ hit.id ∈ b
  score : ∀ hit ∈ out, hit.dist = fusedScore rrfK a b hit.id
  sorted : out.Pairwise fun hit hit' => hit'.dist ≤ hit.dist
  rest : ∀ x, x ∈ a ∨ x ∈ b → x ∉ out.map Hit.id → ∀ hit ∈ out, fusedScore rrfK a b x ≤ hit.dist
  before : ∀ x y, Before a x y → Before b x y → y ∈ out.map Hit.id → Before (out.map Hit.id) x y

theorem fusedScore_comm (rrfK : ℚ) (a b : List ExternalId) (x : ExternalId) :
    fusedScore rrfK a b x = fusedScore rrfK b a x := add_comm _ _

/-- The earlier of two ids of a ranking gets more. -/
theorem rankScore_lt (hk : 0 ≤ rrfK) (hnodup : ids.Nodup) (h : Before ids x y) :
    rankScore rrfK 0 ids y < rankScore rrfK 0 ids x := by
  obtain ⟨i, j, hij, hi, hj⟩ := h
  obtain ⟨hilt, rfl⟩ := List.getElem?_eq_some_iff.1 hi
  obtain ⟨hjlt, rfl⟩ := List.getElem?_eq_some_iff.1 hj
  unfold rankScore
  rw [if_pos (List.getElem_mem hilt), if_pos (List.getElem_mem hjlt),
    hnodup.idxOf_getElem i hilt, hnodup.idxOf_getElem j hjlt]
  have hcast : ((0 + i + 1 : ℕ) : ℚ) < ((0 + j + 1 : ℕ) : ℚ) := by
    rw [Nat.cast_lt]
    omega
  have hpos : (0 : ℚ) < rrfK + (0 + i + 1 : ℕ) := by positivity
  exact one_div_lt_one_div_of_lt hpos (add_lt_add_right hcast rrfK)

/-! ### The scores that are added up -/

/-- Adding to one score of a map. -/
theorem addScore_map {f : ExternalId → ℚ} (hf : ∀ x, x ∉ keys → f x = 0) (id : ExternalId) (s : ℚ) :
    addScore (keys.map fun x => (x, f x)) id s =
      (if id ∈ keys then keys else keys ++ [id]).map fun x =>
      (x, f x + if x = id then s else 0) := by
  have hfst : (keys.map fun x => (x, f x)).map Prod.fst = keys := by
    rw [List.map_map]
    exact List.map_id keys
  unfold addScore
  rw [hfst]
  split_ifs with hid
  · rw [List.map_map]
    refine List.map_congr_left fun x _ => ?_
    dsimp only [Function.comp_apply]
    split_ifs
    · rfl
    · rw [add_zero]
  · rw [List.map_append, List.map_singleton, if_pos rfl, hf id hid]
    refine congrArg (· ++ _) (List.map_congr_left fun x hx => ?_)
    rw [if_neg (ne_of_mem_of_not_mem hx hid), add_zero]

/-- The first id of a ranking, and those behind it. -/
theorem rankScore_cons (hid : id ∉ ids) (n : ℕ) (x : ExternalId) :
    (if x = id then 1 / (rrfK + (n + 1 : ℕ)) else 0) + rankScore rrfK (n + 1) ids x =
      rankScore rrfK n (id :: ids) x := by
  unfold rankScore
  by_cases hx : x = id
  · subst hx
    rw [if_pos rfl, if_neg hid, if_pos List.mem_cons_self, List.idxOf_cons_self, add_zero, add_zero]
  · rw [if_neg hx, zero_add, List.idxOf_cons_ne ids (Ne.symm hx)]
    have hrank : n + (ids.idxOf x).succ + 1 = n + 1 + ids.idxOf x + 1 := by omega
    rw [hrank]
    exact if_congr (by rw [List.mem_cons, or_iff_right hx]) rfl rfl

/-- What a pass over a ranking leaves of the scores. -/
theorem foldScores_from (rrfK : ℚ) (hits : List (Hit δ)) (n : ℕ) {f : ExternalId → ℚ}
    (hkeys : keys.Nodup)
    (hf : ∀ x, x ∉ keys → f x = 0) (hnodup : (hits.map Hit.id).Nodup) :
    ∃ keys' : List ExternalId, (hits.zipIdx n).foldl
        (fun score h => addScore score h.1.id (1 / (rrfK + (h.2 + 1 : ℕ))))
        (keys.map fun x => (x, f x)) =
          keys'.map (fun x => (x, f x + rankScore rrfK n (hits.map Hit.id) x)) ∧
      keys'.Nodup ∧ ∀ x, x ∈ keys' ↔ x ∈ keys ∨ x ∈ hits.map Hit.id := by
  induction hits generalizing n keys f with
  | nil =>
    refine ⟨keys, ?_, hkeys, fun x => by simp⟩
    refine List.map_congr_left fun x _ => ?_
    rw [rankScore, if_neg (by simp), add_zero]
  | cons h hits ih =>
    rw [List.map_cons, List.nodup_cons] at hnodup
    obtain ⟨hid, hnodup⟩ := hnodup
    have hkeys₁ : (if h.id ∈ keys then keys else keys ++ [h.id]).Nodup := by
      split_ifs with hin
      · exact hkeys
      · exact List.nodup_append.2 ⟨hkeys, List.nodup_singleton _, fun x hx y hy =>
          List.mem_singleton.1 hy ▸ ne_of_mem_of_not_mem hx hin⟩
    have hmem₁ : ∀ x, x ∈ (if h.id ∈ keys then keys else keys ++ [h.id]) ↔ x ∈ keys ∨ x = h.id := by
      intro x
      split_ifs with hin
      · exact (or_iff_left_of_imp fun hx => hx ▸ hin).symm
      · rw [List.mem_append, List.mem_singleton]
    obtain ⟨keys', hfold, hnodup', hmem⟩ := ih (n + 1) hkeys₁
      (f := fun x => f x + if x = h.id then 1 / (rrfK + (n + 1 : ℕ)) else 0)
      (fun x hx => by
        rw [hmem₁, not_or] at hx
        rw [hf x hx.1, if_neg hx.2, add_zero]) hnodup
    refine ⟨keys', ?_, hnodup', fun x => ?_⟩
    · rw [List.zipIdx_cons, List.foldl_cons, addScore_map hf, hfold, List.map_cons]
      refine List.map_congr_left fun x _ => ?_
      rw [add_assoc, rankScore_cons hid]
    · rw [hmem, hmem₁, List.map_cons, List.mem_cons, or_assoc]

/-- The scores of both passes. -/
theorem foldScores_both (rrfK : ℚ) {hits : List (Hit δ)} {hits' : List (Hit σ)}
    (hnodup : (hits.map Hit.id).Nodup) (hnodup' : (hits'.map Hit.id).Nodup) :
    ∃ keys : List ExternalId, foldScores rrfK (foldScores rrfK [] hits) hits' =
        keys.map (fun x => (x, fusedScore rrfK (hits.map Hit.id) (hits'.map Hit.id) x)) ∧
      keys.Nodup ∧ ∀ x, x ∈ keys ↔ x ∈ hits.map Hit.id ∨ x ∈ hits'.map Hit.id := by
  obtain ⟨keys, hfold, hkeys, hmem⟩ := foldScores_from rrfK hits 0
    (f := fun _ => 0) (List.nodup_nil (α := ExternalId)) (fun _ _ => rfl) hnodup
  obtain ⟨keys', hfold', hkeys', hmem'⟩ := foldScores_from rrfK hits' 0 hkeys
    (f := fun x => 0 + rankScore rrfK 0 (hits.map Hit.id) x) (fun x hx => by
      rw [hmem, not_or] at hx
      rw [rankScore, if_neg hx.2, add_zero]) hnodup'
  refine ⟨keys', ?_, hkeys', fun x => ?_⟩
  · unfold foldScores
    rw [show ([] : List (ExternalId × ℚ)) = List.map (fun x => (x, (0 : ℚ))) [] from rfl,
      hfold, hfold']
    simp only [zero_add, fusedScore]
  · rw [hmem', hmem]
    simp

/-- The ids a fusion ranks, and those it reports. -/
theorem exists_ranked (rrfK : ℚ) {a : List (Hit δ)} {b : List (Hit σ)} (ha : (a.map Hit.id).Nodup)
    (hb : (b.map Hit.id).Nodup) (k : ℕ) :
    ∃ keys : List ExternalId, keys.Nodup ∧
      (∀ x, x ∈ keys ↔ x ∈ a.map Hit.id ∨ x ∈ b.map Hit.id) ∧
      Selects (fun x => OrderDual.toDual (fusedScore rrfK (a.map Hit.id) (b.map Hit.id) x)) k keys
        ((rrfFuse a b k rrfK).map Hit.id) ∧
      ∀ hit ∈ rrfFuse a b k rrfK,
        hit.dist = fusedScore rrfK (a.map Hit.id) (b.map Hit.id) hit.id := by
  obtain ⟨keys, hscore, hkeys, hmem⟩ := foldScores_both rrfK ha hb
  set F := fusedScore rrfK (a.map Hit.id) (b.map Hit.id) with hF
  have hsort : (keys.map fun x => (x, F x)).insertionSort (fun x y => y.2 ≤ x.2) =
      (keys.insertionSort fun x y => F y ≤ F x).map fun x => (x, F x) :=
    (List.map_insertionSort (fun x y => F y ≤ F x) (fun x y : ExternalId × ℚ => y.2 ≤ x.2)
      (fun x => (x, F x)) keys fun _ _ _ _ => Iff.rfl).symm
  have hfuse : rrfFuse a b k rrfK = ((keys.insertionSort fun x y => F y ≤ F x).take k).map
      fun x => ⟨x, F x, ((foldPayloads (foldPayloads [] a) b).lookup x).getD []⟩ := by
    unfold rrfFuse
    rw [hscore]
    dsimp only
    rw [hsort, ← List.map_take, List.map_map]
    rfl
  have hids : (rrfFuse a b k rrfK).map Hit.id =
      (keys.insertionSort fun x y => F y ≤ F x).take k := by
    rw [hfuse, List.map_map]
    exact List.map_id _
  refine ⟨keys, hkeys, hmem, ?_, fun hit hhit => ?_⟩
  · rw [hids]
    exact selects_insertionSort (fun x => OrderDual.toDual (F x)) k keys
  · rw [hfuse] at hhit
    obtain ⟨x, -, rfl⟩ := List.mem_map.1 hhit
    rfl

/-- The ids of two rankings, each once. -/
theorem length_union {keys a b : List ExternalId} (hkeys : keys.Nodup)
    (hmem : ∀ x, x ∈ keys ↔ x ∈ a ∨ x ∈ b) : keys.length = (a.toFinset ∪ b.toFinset).card := by
  rw [← List.toFinset_card_of_nodup hkeys]
  refine congrArg Finset.card (Finset.ext fun x => ?_)
  rw [List.mem_toFinset, hmem, Finset.mem_union, List.mem_toFinset, List.mem_toFinset]

/-- **Fusing two rankings** without repeated ids. -/
theorem fuses {a : List (Hit δ)} {b : List (Hit σ)} (ha : (a.map Hit.id).Nodup)
    (hb : (b.map Hit.id).Nodup) (k : ℕ) (hk : 0 ≤ rrfK) :
    Fuses rrfK (a.map Hit.id) (b.map Hit.id) k (rrfFuse a b k rrfK) ∧
      ∀ hit ∈ rrfFuse a b k rrfK, ∀ hit' ∈ rrfFuse b a k rrfK, hit.id = hit'.id →
        hit.dist = hit'.dist := by
  obtain ⟨keys, hkeys, hmem, hselects, hscore⟩ := exists_ranked rrfK ha hb k
  obtain ⟨-, -, -, -, hscore'⟩ := exists_ranked rrfK hb ha k
  refine ⟨?_, fun hit hhit hit' hhit' hid => ?_⟩
  · have hrest : ∀ x, x ∈ a.map Hit.id ∨ x ∈ b.map Hit.id → x ∉ (rrfFuse a b k rrfK).map Hit.id →
        ∀ hit ∈ rrfFuse a b k rrfK,
          fusedScore rrfK (a.map Hit.id) (b.map Hit.id) x ≤ hit.dist := by
      intro x hx hnot hit hhit
      rw [hscore hit hhit]
      exact hselects.le_of_not_mem ((hmem x).2 hx) hnot (List.mem_map_of_mem hhit)
    exact
    { length := by
        rw [← length_union hkeys hmem, ← hselects.length, List.length_map]
      nodup := hselects.nodup hkeys
      mem := fun hit hhit => (hmem _).1 (hselects.subset (List.mem_map_of_mem hhit))
      score := hscore
      sorted := (List.pairwise_map.1 hselects.sorted).imp_of_mem fun {hit hit'} h h' hle => by
        rw [hscore hit h, hscore hit' h']
        exact hle
      rest := hrest
      before := fun x y hxa hxb hy => by
        have hlt : fusedScore rrfK (a.map Hit.id) (b.map Hit.id) y <
            fusedScore rrfK (a.map Hit.id) (b.map Hit.id) x :=
          add_lt_add (rankScore_lt hk ha hxa) (rankScore_lt hk hb hxb)
        obtain ⟨hit, hhit, rfl⟩ := List.mem_map.1 hy
        have hx : x ∈ (rrfFuse a b k rrfK).map Hit.id := by
          by_contra hnot
          obtain ⟨i, -, -, hi, -⟩ := hxa
          have hle := hrest x (.inl (List.mem_of_getElem? hi)) hnot hit hhit
          rw [hscore hit hhit] at hle
          exact absurd hlt (not_lt.2 hle)
        obtain ⟨i, hi⟩ := List.getElem?_of_mem hx
        obtain ⟨j, hj⟩ := List.getElem?_of_mem hy
        refine ⟨i, j, ?_, hi, hj⟩
        rcases lt_trichotomy i j with hij | rfl | hij
        · exact hij
        · rw [hi] at hj
          rw [Option.some.inj hj] at hlt
          exact absurd hlt (lt_irrefl _)
        · -- the sorted scores would be the other way round
          obtain ⟨hilt, rfl⟩ := List.getElem?_eq_some_iff.1 hi
          obtain ⟨hjlt, hyj⟩ := List.getElem?_eq_some_iff.1 hj
          have hle := List.pairwise_iff_getElem.1 hselects.sorted j i hjlt hilt hij
          rw [hyj] at hle
          exact absurd hlt (not_lt.2 hle) }
  · rw [hscore hit hhit, hscore' hit' hhit', hid]
    exact fusedScore_comm _ _ _ _

/-- The second hit of one search is the only hit of the other. -/
theorem fuses_second :
    let a : List (Hit ℕ) := [⟨1, 5, []⟩, ⟨2, 6, [7]⟩]
    let b : List (Hit ℕ) := [⟨2, 9, [7]⟩]
    Fuses 60 [1, 2] [2] 1 (rrfFuse a b 1 60) ∧
      ∀ hit ∈ rrfFuse a b 1 60, ∀ hit' ∈ rrfFuse b a 1 60, hit.id = hit'.id →
        hit.dist = hit'.dist :=
  fuses (a := [⟨1, 5, []⟩, ⟨2, 6, [7]⟩]) (b := [⟨2, 9, [7]⟩]) (by decide) (by decide) 1 (by decide)

end Database

end Vdb
