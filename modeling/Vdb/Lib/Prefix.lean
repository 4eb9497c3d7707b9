import Mathlib.Data.List.Infix
import Mathlib.Order.MinMax
import Mathlib.Tactic.Common

/-!
# Fronts of a list

* `filter_front` : the elements with a property are a front if none has it behind one that has not.
* `prefix_eq_filter` : a front of a list with increasing keys has the elements with no larger key.
-/

namespace Vdb

variable {α : Type*} {f : α → ℕ} {front as : List α}

/-- The largest key of some elements. -/
theorem le_foldl_max {a : α} {n : ℕ} : n ≤ as.foldl (fun m a => max m (f a)) n ∧
    (a ∈ as → f a ≤ as.foldl (fun m a => max m (f a)) n) := by
  induction as generalizing n with
  | nil => exact ⟨le_rfl, fun h => absurd h List.not_mem_nil⟩
  | cons b as ih =>
    rw [List.foldl_cons]
    obtain ⟨hle, hmem⟩ := ih (n := max n (f b))
    refine ⟨(le_max_left ..).trans hle, fun h => ?_⟩
    rcases List.mem_cons.1 h with rfl | h
    · exact (le_max_right ..).trans hle
    · exact hmem h

theorem foldl_max_lt {m n : ℕ} (hm : m < n) (h : ∀ a ∈ as, f a < n) :
    as.foldl (fun m a => max m (f a)) m < n := by
  induction as generalizing m with
  | nil => exact hm
  | cons a as ih =>
    obtain ⟨ha, has⟩ := List.forall_mem_cons.1 h
    exact ih (max_lt hm ha) has

theorem filter_front {p : α → Bool} (h : as.Pairwise fun a b => p b = true → p a = true) :
    as.filter p <+: as := by
  induction as with
  | nil => exact List.prefix_rfl
  | cons a as ih =>
    obtain ⟨ha, has⟩ := List.pairwise_cons.1 h
    by_cases hpa : p a = true
    · rw [List.filter_cons_of_pos hpa]
      exact (List.prefix_cons_inj a).2 (ih has)
    · rw [List.filter_eq_nil_iff.2]
      · exact List.nil_prefix
      · intro b hb hpb
        rcases List.mem_cons.1 hb with rfl | hb
        · exact hpa hpb
        · exact hpa (ha b hb hpb)

theorem prefix_eq_filter (h : front <+: as) (hordered : (0 :: as.map f).Pairwise (· < ·)) :
    front = as.filter (f · ≤ front.foldl (fun m a => max m (f a)) 0) := by
  obtain ⟨rest, rfl⟩ := h
  rw [List.map_append, ← List.cons_append] at hordered
  obtain ⟨-, -, hcross⟩ := List.pairwise_append.1 hordered
  rw [List.filter_append, List.filter_eq_self.2, List.filter_eq_nil_iff.2, List.append_nil]
  · intro a ha
    have hkey := List.mem_map_of_mem (f := f) ha
    have hmax := foldl_max_lt (hcross 0 List.mem_cons_self _ hkey) fun b hb =>
      hcross (f b) (List.mem_cons_of_mem _ (List.mem_map_of_mem hb)) _ hkey
    simpa using hmax
  · exact fun a ha => decide_eq_true (le_foldl_max.2 ha)

end Vdb
