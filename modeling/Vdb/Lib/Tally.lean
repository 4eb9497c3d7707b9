import Mathlib.Data.List.Count
import Mathlib.Data.List.GetD
import Mathlib.Algebra.BigOperators.Group.List.Basic
import Mathlib.Algebra.Order.Group.Nat
import Mathlib.Algebra.GroupWithZero.Nat
import Mathlib.Tactic.Common

/-!
# Tallies

A list of counters kept in step with a list of things that are counted: what adjusting the counters
at some places does to each, and what replacing one thing does to a count or a sum over all.
-/

namespace Tally

variable {α β : Type*}

/-- Adjusting the entries at the places `ks`, each once. -/
theorem getElem?_foldl_modify (f : α → α) {ks : List ℕ} (hks : ks.Nodup) (l : List α) (k : ℕ) :
    (ks.foldl (fun l k => l.modify k f) l)[k]? = if k ∈ ks then (l[k]?).map f else l[k]? := by
  induction ks generalizing l with
  | nil => simp
  | cons j ks ih =>
    obtain ⟨hj, hks⟩ := List.nodup_cons.1 hks
    rw [List.foldl_cons, ih hks, List.getElem?_modify]
    by_cases hjk : j = k
    · subst hjk
      simp [hj]
    · have hkj : k ≠ j := fun h => hjk h.symm
      simp [hjk, hkj]

theorem length_foldl_modify (f : α → α) (ks : List ℕ) (l : List α) :
    (ks.foldl (fun l k => l.modify k f) l).length = l.length := by
  induction ks generalizing l with
  | nil => rfl
  | cons j ks ih => rw [List.foldl_cons, ih, List.length_modify]

/-- The same entry of an adjusted list of numbers, all places being in range. -/
theorem getD_foldl_modify (f : ℕ → ℕ) {ks : List ℕ} (hks : ks.Nodup) {l : List ℕ}
    (hl : ∀ k ∈ ks, k < l.length) (k : ℕ) :
    (ks.foldl (fun l k => l.modify k f) l).getD k 0 =
      if k ∈ ks then f (l.getD k 0) else l.getD k 0 := by
  rw [List.getD_eq_getElem?_getD, getElem?_foldl_modify f hks, List.getD_eq_getElem?_getD]
  split_ifs with hk
  · rw [List.getElem?_eq_getElem (hl k hk)]
    rfl
  · rfl

/-- Appending the default value changes no entry. -/
theorem getD_concat_default (l : List α) (d : α) (k : ℕ) : (l ++ [d]).getD k d = l.getD k d := by
  rcases Nat.lt_or_ge k l.length with h | h
  · rw [List.getD_append _ _ _ _ h]
  · rw [List.getD_append_right _ _ _ _ h, List.getD_eq_default _ _ h]
    cases k - l.length <;> rfl

theorem getElem?_concat_iff {l : List α} {a b : α} {k : ℕ} :
    (l ++ [a])[k]? = some b ↔ l[k]? = some b ∨ k = l.length ∧ b = a := by
  rcases Nat.lt_trichotomy k l.length with h | rfl | h
  · rw [List.getElem?_append_left h]
    exact ⟨.inl, fun hb => hb.elim id fun hb => absurd hb.1 h.ne⟩
  · rw [List.getElem?_concat_length, List.getElem?_eq_none le_rfl]
    simp [eq_comm]
  · rw [List.getElem?_eq_none (by rw [List.length_append]; exact h), List.getElem?_eq_none h.le]
    simp [h.ne']

/-- Replacing one element changes a sum by the difference of the two. -/
theorem sum_map_set (f : α → ℕ) {l : List α} {i : ℕ} {a : α} (h : l[i]? = some a) (b : α) :
    ((l.set i b).map f).sum + f a = (l.map f).sum + f b := by
  induction l generalizing i with
  | nil => cases h
  | cons x l ih =>
    cases i with
    | zero =>
      cases h
      simp only [List.set_cons_zero, List.map_cons, List.sum_cons]
      omega
    | succ i =>
      have := ih h
      simp only [List.set_cons_succ, List.map_cons, List.sum_cons]
      omega

/-- Replacing one element changes a count by what the two count for. -/
theorem countP_set (p : α → Bool) {l : List α} {i : ℕ} {a : α} (h : l[i]? = some a) (b : α) :
    (l.set i b).countP p + (p a).toNat = l.countP p + (p b).toNat := by
  have hsum := sum_map_set (fun x => (p x).toNat) h b
  have hcount : ∀ l : List α, l.countP p = (l.map fun x => (p x).toNat).sum := by
    intro l
    induction l with
    | nil => rfl
    | cons x l ih =>
      rw [List.countP_cons, ih, List.map_cons, List.sum_cons]
      cases p x <;> simp [Nat.add_comm]
  rwa [← hcount, ← hcount] at hsum

end Tally
