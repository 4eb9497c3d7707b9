import Mathlib.Data.List.Sort
import Mathlib.Data.List.Forall2
import Mathlib.Order.Antisymmetrization

/-!
# Selecting the least elements

What a selection of the `k` least elements of a list answers, whatever it does with elements that
are equally small: `Selects key k l r`.  The keys are of any total preorder.

* `Selects.filter` : an element that is to be dropped later costs one place of the selection.
* `Selects.keys` : two selections from the same elements have the same keys, in the same order.
-/

namespace Selection

variable {α β δ : Type*} [Preorder δ]

/-- `r` are the `k` elements of `l` with the least keys, in order. -/
structure Selects (key : α → δ) (k : ℕ) (l r : List α) : Prop where
  sorted : r.Pairwise fun a b => key a ≤ key b
  length : r.length = min k l.length
  rest : ∃ rest, (r ++ rest).Perm l ∧ ∀ a ∈ r, ∀ b ∈ rest, key a ≤ key b

variable {key : α → δ} {k n : ℕ} {l l' r r' : List α}

/-- Sorting the list and taking the first `k` is a selection. -/
theorem selects_insertionSort [DecidableLE δ] [Std.Total (α := δ) (· ≤ ·)] (key : α → δ) (k : ℕ)
    (l : List α) : Selects key k l ((l.insertionSort fun a b => key a ≤ key b).take k) := by
  have : Std.Total fun a b : α => key a ≤ key b := ⟨fun a b => Std.Total.total (key a) (key b)⟩
  have : IsTrans α fun a b => key a ≤ key b := ⟨fun _ _ _ => le_trans⟩
  have hsorted := List.pairwise_insertionSort (fun a b => key a ≤ key b) l
  have hperm := List.perm_insertionSort (fun a b => key a ≤ key b) l
  set s := l.insertionSort fun a b => key a ≤ key b
  refine ⟨hsorted.sublist (List.take_sublist k s), by rw [List.length_take, hperm.length_eq],
    s.drop k, by rwa [List.take_append_drop], fun a ha b hb => ?_⟩
  rw [← List.take_append_drop k s] at hsorted
  exact (List.pairwise_append.1 hsorted).2.2 a ha b hb

namespace Selects

theorem perm (h : Selects key k l r) (hp : l.Perm l') : Selects key k l' r := by
  obtain ⟨rest, hperm, hle⟩ := h.rest
  exact ⟨h.sorted, by rw [h.length, hp.length_eq], rest, hperm.trans hp, hle⟩

theorem subset (h : Selects key k l r) {a : α} (ha : a ∈ r) : a ∈ l := by
  obtain ⟨rest, hperm, -⟩ := h.rest
  exact hperm.subset (List.mem_append_left rest ha)

theorem nodup (h : Selects key k l r) (hl : l.Nodup) : r.Nodup := by
  obtain ⟨rest, hperm, -⟩ := h.rest
  exact (List.nodup_append.1 (hperm.nodup_iff.2 hl)).1

/-- What is left out is at least as large as all that is selected. -/
theorem le_of_not_mem (h : Selects key k l r) {a b : α} (hb : b ∈ l) (hr : b ∉ r) (ha : a ∈ r) :
    key a ≤ key b := by
  obtain ⟨rest, hperm, hle⟩ := h.rest
  exact hle a ha b ((List.mem_append.1 (hperm.symm.subset hb)).resolve_left hr)

theorem map {f : β → α} {l r : List β} (h : Selects (key ∘ f) k l r) :
    Selects key k (l.map f) (r.map f) := by
  obtain ⟨rest, hperm, hle⟩ := h.rest
  refine ⟨List.pairwise_map.2 h.sorted, by rw [List.length_map, List.length_map, h.length],
    rest.map f, List.map_append ▸ hperm.map f, ?_⟩
  intro x hx y hy
  obtain ⟨a, ha, rfl⟩ := List.mem_map.1 hx
  obtain ⟨b, hb, rfl⟩ := List.mem_map.1 hy
  exact hle a ha b hb

/-- A selection with room for what is dropped from it afterwards. -/
theorem filter {p : α → Bool} (h : Selects key n l r)
    (hn : k + l.countP (fun a => !p a) ≤ n ∨ l.length ≤ n) :
    Selects key k (l.filter p) ((r.filter p).take k) := by
  obtain ⟨rest, hperm, hle⟩ := h.rest
  have hfilter : (r.filter p ++ rest.filter p).Perm (l.filter p) := by
    rw [← List.filter_append]
    exact hperm.filter p
  -- either the whole list is selected, or enough of it to drop some
  have hroom : rest = [] ∨ k ≤ (r.filter p).length := by
    have hlen := hperm.length_eq
    rw [List.length_append, h.length] at hlen
    by_cases hall : l.length ≤ n
    · exact .inl (List.length_eq_zero_iff.1 (by omega))
    · have hdropped := hperm.countP_eq fun a => !p a
      have hsplit := List.length_eq_countP_add_countP p (l := r)
      rw [List.countP_append] at hdropped
      rw [h.length, List.countP_eq_length_filter] at hsplit
      have hnot : List.countP (fun a => decide ¬ p a = true) r = r.countP fun a => !p a :=
        List.countP_congr fun a _ => by simp
      refine .inr ?_
      rw [hnot] at hsplit
      omega
  refine ⟨(h.sorted.sublist List.filter_sublist).sublist (List.take_sublist _ _), ?_,
    (r.filter p).drop k ++ rest.filter p, ?_, ?_⟩
  · rw [List.length_take, ← hfilter.length_eq, List.length_append]
    rcases hroom with rfl | hk
    · rfl
    · omega
  · rw [← List.append_assoc, List.take_append_drop]
    exact hfilter
  · intro a ha b hb
    rcases List.mem_append.1 hb with hb | hb
    · have hsorted := h.sorted.sublist (List.filter_sublist (p := p))
      rw [← List.take_append_drop k (r.filter p)] at hsorted
      exact (List.pairwise_append.1 hsorted).2.2 a ha b hb
    · exact hle a (List.mem_of_mem_filter (List.mem_of_mem_take ha)) b (List.mem_of_mem_filter hb)

/-- A selection is the start of the whole list in order. -/
theorem extends_sorted [Std.Total (α := δ) (· ≤ ·)] (h : Selects key k l r) :
    ∃ s : List α, s.Perm l ∧ (s.Pairwise fun a b => key a ≤ key b) ∧
        r = s.take (min k l.length) := by
  classical
  have : Std.Total fun a b : α => key a ≤ key b := ⟨fun a b => Std.Total.total (key a) (key b)⟩
  have : IsTrans α fun a b => key a ≤ key b := ⟨fun _ _ _ => le_trans⟩
  obtain ⟨rest, hperm, hle⟩ := h.rest
  have hrest := List.perm_insertionSort (fun a b => key a ≤ key b) rest
  refine ⟨r ++ rest.insertionSort fun a b => key a ≤ key b, (hrest.append_left r).trans hperm,
    List.pairwise_append.2 ⟨h.sorted, List.pairwise_insertionSort _ rest, fun a ha b hb =>
      hle a ha b (hrest.subset hb)⟩, ?_⟩
  rw [← h.length, List.take_left]

/-- **The keys** of a selection do not depend on how it is made. -/
theorem keys [Std.Total (α := δ) (· ≤ ·)] (h : Selects key k l r) (h' : Selects key k l' r')
    (hl : l.Perm l') : List.Forall₂ (fun a b => AntisymmRel (· ≤ ·) (key a) (key b)) r r' := by
  obtain ⟨s, hs, hsorted, rfl⟩ := h.extends_sorted
  obtain ⟨s', hs', hsorted', rfl⟩ := h'.extends_sorted
  -- equally small keys are one in the quotient, and there a sorted list is unique
  let f : α → Antisymmetrization δ (· ≤ ·) := fun a => toAntisymmetrization (· ≤ ·) (key a)
  have heq : s.map f = s'.map f := by
    refine ((hs.trans (hl.trans hs'.symm)).map f).eq_of_pairwise' ?_ ?_ (r := (· ≤ ·))
    · exact List.pairwise_map.2 (hsorted.imp fun hab => hab)
    · exact List.pairwise_map.2 (hsorted'.imp fun hab => hab)
  have htake : (s.take (min k l.length)).map f = (s'.take (min k l'.length)).map f := by
    rw [List.map_take, List.map_take, heq, hl.length_eq]
  rw [← List.forall₂_eq_eq_eq, List.forall₂_map_left_iff, List.forall₂_map_right_iff] at htake
  exact htake.imp fun a b hab => Quotient.exact hab

end Selects

end Selection
