import Mathlib.Data.List.GetD
import Mathlib.Order.Lattice
import Mathlib.Data.Nat.Basic
import Mathlib.Tactic.Common

/-!
# Binary search

The halving loop of `std::lower_bound` and `std::upper_bound`, as a search for the partition
point of a Boolean predicate on `0, …, n - 1` (`Search.partitionPoint`).  Two facts hold for every
predicate, partitioned or not (`Search.partitionPoint_spec`): the place before the result
satisfies the predicate, and the place of the result does not.  On a sorted list they determine
the result (`Search.take_lowerBound_lt`, `Search.le_drop_lowerBound`).
-/

namespace Search

/-- The halving loop on the places `first, …, first + len - 1`.  The first argument bounds the
number of rounds; `len` rounds are enough. -/
def halve (p : ℕ → Bool) : ℕ → ℕ → ℕ → ℕ
  | 0, first, _ => first
  | fuel + 1, first, len =>
    if len = 0 then first
    else if p (first + len / 2) then halve p fuel (first + len / 2 + 1) (len - len / 2 - 1)
    else halve p fuel first (len / 2)

/-- The place the halving loop ends at, searching `0, …, n - 1`. -/
def partitionPoint (p : ℕ → Bool) (n : ℕ) : ℕ := halve p n 0 n

theorem halve_spec (p : ℕ → Bool) (fuel : ℕ) : ∀ first len, len ≤ fuel →
    first ≤ halve p fuel first len ∧ halve p fuel first len ≤ first + len ∧
    (halve p fuel first len = first ∨ p (halve p fuel first len - 1) = true) ∧
    (halve p fuel first len = first + len ∨ p (halve p fuel first len) = false) := by
  induction fuel with
  | zero => intro first len h; simp [halve]; omega
  | succ fuel ih =>
    intro first len h
    rw [halve]
    by_cases h0 : len = 0
    · simp [h0]
    · rw [if_neg h0]
      have hmid : len / 2 < len := Nat.div_lt_self (by omega) (by omega)
      by_cases hp : p (first + len / 2) = true
      · rw [if_pos hp]
        obtain ⟨h1, h2, h3, h4⟩ := ih (first + len / 2 + 1) (len - len / 2 - 1) (by omega)
        refine ⟨by omega, by omega, ?_, ?_⟩
        · rcases h3 with h3 | h3
          · right; rw [h3]; simpa using hp
          · exact .inr h3
        · rcases h4 with h4 | h4
          · left; omega
          · exact .inr h4
      · rw [if_neg hp]
        obtain ⟨h1, h2, h3, h4⟩ := ih first (len / 2) (by omega)
        refine ⟨h1, by omega, h3, ?_⟩
        rcases h4 with h4 | h4
        · right; rw [h4]; simpa using hp
        · exact .inr h4

/-- The place before the result satisfies the predicate and the place of the result does not,
whether or not the predicate is partitioned. -/
theorem partitionPoint_spec (p : ℕ → Bool) (n : ℕ) :
    partitionPoint p n ≤ n ∧
    (partitionPoint p n = 0 ∨ p (partitionPoint p n - 1) = true) ∧
    (partitionPoint p n = n ∨ p (partitionPoint p n) = false) := by
  obtain ⟨-, h2, h3, h4⟩ := halve_spec p n 0 n le_rfl
  rw [Nat.zero_add] at h2 h4
  exact ⟨h2, h3, h4⟩

variable {α : Type*} [LinearOrder α] [Inhabited α]

/-- `std::lower_bound`: the first place not below `x`, when the list is sorted. -/
def lowerBound (xs : List α) (x : α) : ℕ :=
  partitionPoint (fun i => decide (xs.getD i default < x)) xs.length

/-- `std::upper_bound`: the first place above `x`, when the list is sorted. -/
def upperBound (xs : List α) (x : α) : ℕ :=
  partitionPoint (fun i => decide (xs.getD i default ≤ x)) xs.length

theorem lowerBound_le (xs : List α) (x : α) : lowerBound xs x ≤ xs.length :=
  (partitionPoint_spec _ _).1

theorem upperBound_le (xs : List α) (x : α) : upperBound xs x ≤ xs.length :=
  (partitionPoint_spec _ _).1

/-- On any list, sorted or not, the entry before `lowerBound xs x` is below `x`. -/
theorem getD_lowerBound_sub_one_lt (xs : List α) {x : α} (h : lowerBound xs x ≠ 0) :
    xs.getD (lowerBound xs x - 1) default < x := by
  have h' := (partitionPoint_spec (fun i => decide (xs.getD i default < x)) xs.length).2.1
  exact of_decide_eq_true (h'.resolve_left h)

theorem le_getD_lowerBound (xs : List α) {x : α} (h : lowerBound xs x ≠ xs.length) :
    x ≤ xs.getD (lowerBound xs x) default := by
  have h' := (partitionPoint_spec (fun i => decide (xs.getD i default < x)) xs.length).2.2
  exact not_lt.1 (of_decide_eq_false (h'.resolve_left h))

theorem getD_upperBound_sub_one_le {xs : List α} {x : α} (h : upperBound xs x ≠ 0) :
    xs.getD (upperBound xs x - 1) default ≤ x := by
  have h' := (partitionPoint_spec (fun i => decide (xs.getD i default ≤ x)) xs.length).2.1
  exact of_decide_eq_true (h'.resolve_left h)

theorem lt_getD_upperBound {xs : List α} {x : α} (h : upperBound xs x ≠ xs.length) :
    x < xs.getD (upperBound xs x) default := by
  have h' := (partitionPoint_spec (fun i => decide (xs.getD i default ≤ x)) xs.length).2.2
  exact not_le.1 (of_decide_eq_false (h'.resolve_left h))

section Sorted

variable {xs : List α} (hs : xs.Pairwise (· ≤ ·)) (x : α)

include hs

theorem getD_le_getD {i j : ℕ} (hij : i ≤ j) (hj : j < xs.length) :
    xs.getD i default ≤ xs.getD j default := by
  rw [List.getD_eq_getElem _ _ hj, List.getD_eq_getElem _ _ (by omega)]
  rcases hij.eq_or_lt with rfl | hlt
  · exact le_rfl
  · exact List.pairwise_iff_getElem.1 hs i j (by omega) hj hlt

/-- Everything before the lower bound is below `x`. -/
theorem take_lowerBound_lt : ∀ y ∈ xs.take (lowerBound xs x), y < x := by
  intro y hy
  obtain ⟨i, hi, rfl⟩ := List.getElem_of_mem hy
  have hle := lowerBound_le xs x
  simp only [List.length_take] at hi
  have hne : lowerBound xs x ≠ 0 := by omega
  have h := getD_le_getD hs (i := i) (j := lowerBound xs x - 1) (by omega) (by omega)
  rw [List.getElem_take, ← List.getD_eq_getElem xs default (by omega)]
  exact h.trans_lt (getD_lowerBound_sub_one_lt _ hne)

/-- Everything from the lower bound on is at least `x`. -/
theorem le_drop_lowerBound : ∀ y ∈ xs.drop (lowerBound xs x), x ≤ y := by
  intro y hy
  obtain ⟨i, hi, rfl⟩ := List.getElem_of_mem hy
  simp only [List.length_drop] at hi
  have hne : lowerBound xs x ≠ xs.length := by omega
  have h := getD_le_getD hs (i := lowerBound xs x) (j := lowerBound xs x + i) (by omega) (by omega)
  rw [List.getElem_drop, ← List.getD_eq_getElem xs default (by omega)]
  exact (le_getD_lowerBound _ hne).trans h

/-- Everything before the upper bound is at most `x`. -/
theorem take_upperBound_le : ∀ y ∈ xs.take (upperBound xs x), y ≤ x := by
  intro y hy
  obtain ⟨i, hi, rfl⟩ := List.getElem_of_mem hy
  have hle := upperBound_le xs x
  simp only [List.length_take] at hi
  have hne : upperBound xs x ≠ 0 := by omega
  have h := getD_le_getD hs (i := i) (j := upperBound xs x - 1) (by omega) (by omega)
  rw [List.getElem_take, ← List.getD_eq_getElem xs default (by omega)]
  exact h.trans (getD_upperBound_sub_one_le hne)

/-- Everything from the upper bound on is above `x`. -/
theorem lt_drop_upperBound : ∀ y ∈ xs.drop (upperBound xs x), x < y := by
  intro y hy
  obtain ⟨i, hi, rfl⟩ := List.getElem_of_mem hy
  simp only [List.length_drop] at hi
  have hne : upperBound xs x ≠ xs.length := by omega
  have h := getD_le_getD hs (i := upperBound xs x) (j := upperBound xs x + i) (by omega) (by omega)
  rw [List.getElem_drop, ← List.getD_eq_getElem xs default (by omega)]
  exact (lt_getD_upperBound hne).trans_le h

end Sorted

omit [Inhabited α] in
/-- On a sorted list, the elements up to a bound are an initial piece. -/
theorem takeWhile_le_eq_filter {β : Type*} {f : β → α} {l : List β}
    (h : l.Pairwise fun a b => f a ≤ f b) (x : α) :
    (l.takeWhile fun b => decide (f b ≤ x)) = l.filter fun b => decide (f b ≤ x) := by
  induction l with
  | nil => rfl
  | cons b l ih =>
    obtain ⟨hb, hl⟩ := List.pairwise_cons.1 h
    by_cases hx : f b ≤ x
    · rw [List.takeWhile_cons_of_pos (by simpa), List.filter_cons_of_pos (by simpa), ih hl]
    · rw [List.takeWhile_cons_of_neg (by simpa using hx),
        List.filter_cons_of_neg (by simpa using hx)]
      refine (List.filter_eq_nil_iff.2 fun c hc => ?_).symm
      simpa using (not_le.1 hx).trans_le (hb c hc)

end Search
