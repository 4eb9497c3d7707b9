import Mathlib.Data.List.TakeWhile
import Mathlib.Data.Nat.Basic

/-!
# Maximal runs

The stretches of a list whose elements all satisfy `p` and that cannot be made longer.

* `IsRun` : such a stretch, by its places.
* `exists_spans` : `runs` are all of them, in order.
* `runs_append_sep`, `runs_intercalate` : elements without `p` only keep runs apart.
-/

namespace Runs

variable {α : Type*} {p : α → Bool} {s t w sep : List α} {a : α} {i j : ℕ}

/-- The places from `i` up to `j` hold elements with `p`, and those next to them do not. -/
structure IsRun (p : α → Bool) (s : List α) (i j : ℕ) : Prop where
  lt : i < j
  inside : ∀ k, i ≤ k → k < j → s[k]?.any p = true
  before : 0 < i → s[i - 1]?.any p = false
  after : s[j]?.any p = false

/-- `spans` are the places of the runs, from left to right. -/
structure Spans (p : α → Bool) (s : List α) (spans : List (ℕ × ℕ)) : Prop where
  sorted : spans.Pairwise fun x y => x.2 < y.1
  mem : ∀ i j, (i, j) ∈ spans ↔ IsRun p s i j

/-- The runs themselves. -/
def runs (p : α → Bool) (s : List α) : List (List α) :=
  (s.splitOnP fun a => !p a).filter fun w => !w.isEmpty

/-- A list is a run, or starts with one that an element without `p` ends. -/
@[elab_as_elim]
theorem split_induction {motive : List α → Prop} (p : α → Bool)
    (all : ∀ w, (∀ a ∈ w, p a = true) → motive w)
    (sep : ∀ w a t, (∀ b ∈ w, p b = true) → p a = false → motive t → motive (w ++ a :: t))
    (s : List α) : motive s := by
  induction hn : s.length using Nat.strong_induction_on generalizing s with
  | _ n ih =>
    subst hn
    have hw : ∀ b ∈ s.takeWhile p, p b = true := fun b => List.mem_takeWhile_imp
    have hsplit := List.takeWhile_append_dropWhile (p := p) (l := s)
    cases hrest : s.dropWhile p with
    | nil =>
      rw [hrest, List.append_nil] at hsplit
      exact all s (hsplit ▸ hw)
    | cons a t =>
      have ha : p a = false := by
        have := List.head_dropWhile_not (l := s) p (by rw [hrest]; exact List.cons_ne_nil a t)
        simpa [hrest] using this
      rw [hrest] at hsplit
      rw [← hsplit]
      refine sep _ a t hw ha (ih t.length ?_ t rfl)
      rw [← hsplit, List.length_append, List.length_cons]
      omega

/-! ### Separators -/

theorem runs_nil : runs p ([] : List α) = [] := rfl

/-- An element without `p` splits the list. -/
theorem runs_append_cons (ha : p a = false) : runs p (s ++ a :: t) = runs p s ++ runs p t := by
  unfold runs
  rw [List.splitOnP_append_cons _ _ (by rw [ha]; rfl), List.filter_append]

theorem runs_of_forall (hne : w ≠ []) (h : ∀ a ∈ w, p a = true) : runs p w = [w] := by
  unfold runs
  rw [List.splitOnP_eq_singleton fun a ha => by rw [h a ha]; rfl]
  simp [hne]

/-- Whatever stands between two lists, of elements without `p`. -/
theorem runs_append_sep (hne : sep ≠ []) (hsep : ∀ a ∈ sep, p a = false) :
    runs p (s ++ sep ++ t) = runs p s ++ runs p t := by
  have hskip : ∀ l : List α, (∀ a ∈ l, p a = false) → runs p (l ++ t) = runs p t := by
    intro l hl
    induction l with
    | nil => rfl
    | cons a l ih =>
      have hcons := runs_append_cons (s := []) (t := l ++ t) (hl a List.mem_cons_self)
      rw [runs_nil, List.nil_append, List.nil_append] at hcons
      rw [List.cons_append, hcons]
      exact ih fun b hb => hl b (List.mem_cons_of_mem a hb)
  cases sep with
  | nil => exact absurd rfl hne
  | cons a sep =>
    rw [List.append_assoc, List.cons_append, runs_append_cons (hsep a List.mem_cons_self),
      hskip sep fun b hb => hsep b (List.mem_cons_of_mem a hb)]

theorem forall_mem_runs (p : α → Bool) (s : List α) :
    ∀ w ∈ runs p s, w ≠ [] ∧ ∀ a ∈ w, p a = true := by
  induction s using split_induction p with
  | all w hw =>
    by_cases hne : w = []
    · subst hne
      exact nofun
    · rw [runs_of_forall hne hw]
      intro v hv
      rw [List.mem_singleton.1 hv]
      exact ⟨hne, hw⟩
  | sep w a t hw ha ih =>
    rw [runs_append_cons ha]
    intro v hv
    rcases List.mem_append.1 hv with hv | hv
    · by_cases hne : w = []
      · rw [hne] at hv
        exact absurd hv List.not_mem_nil
      · rw [runs_of_forall hne hw] at hv
        rw [List.mem_singleton.1 hv]
        exact ⟨hne, hw⟩
    · exact ih v hv

/-- Runs that are put together again. -/
theorem runs_intercalate (ha : p a = false) {ws : List (List α)}
    (h : ∀ w ∈ ws, w ≠ [] ∧ ∀ b ∈ w, p b = true) : runs p ([a].intercalate ws) = ws := by
  induction ws with
  | nil => rfl
  | cons w ws ih =>
    obtain ⟨hne, hw⟩ := h w List.mem_cons_self
    cases ws with
    | nil =>
      rw [List.intercalate_singleton]
      exact runs_of_forall hne hw
    | cons v ws =>
      rw [List.intercalate_cons_cons, List.append_assoc, List.singleton_append,
        runs_append_cons ha, runs_of_forall hne hw,
        ih fun u hu => h u (List.mem_cons_of_mem w hu), List.singleton_append]

/-! ### Places -/

theorem any_append_left {k : ℕ} (ha : p a = false) (hk : k ≤ s.length) :
    (s ++ a :: t)[k]?.any p = s[k]?.any p := by
  rcases Nat.lt_or_eq_of_le hk with hk | rfl
  · rw [List.getElem?_append_left hk]
  · rw [List.getElem?_append_right le_rfl, Nat.sub_self, List.getElem?_cons_zero,
      List.getElem?_eq_none le_rfl]
    exact ha

theorem any_append_right (k : ℕ) : (s ++ a :: t)[k + (s.length + 1)]?.any p = t[k]?.any p := by
  rw [List.getElem?_append_right (by omega), show k + (s.length + 1) - s.length = k + 1 by omega,
    List.getElem?_cons_succ]

/-- A run ends within the list. -/
theorem IsRun.le_length (h : IsRun p s i j) : j ≤ s.length := by
  have hlast := h.inside (j - 1) (Nat.le_sub_one_of_lt h.lt) (Nat.sub_one_lt_of_lt h.lt)
  by_contra hlt
  rw [List.getElem?_eq_none (by omega)] at hlast
  cases hlast

/-- A list of elements with `p` is one run. -/
theorem isRun_of_forall (h : ∀ a ∈ w, p a = true) :
    IsRun p w i j ↔ w ≠ [] ∧ i = 0 ∧ j = w.length := by
  have hany : ∀ k, w[k]?.any p = decide (k < w.length) := by
    intro k
    by_cases hk : k < w.length
    · rw [List.getElem?_eq_getElem hk, Option.any_some, h _ (List.getElem_mem hk),
        decide_eq_true hk]
    · rw [List.getElem?_eq_none (Nat.le_of_not_lt hk), Option.any_none, decide_eq_false hk]
  constructor
  · intro hrun
    have hle := hrun.le_length
    have hlt := hrun.lt
    have hafter := hrun.after
    rw [hany, decide_eq_false_iff_not] at hafter
    refine ⟨?_, ?_, le_antisymm hle (Nat.le_of_not_lt hafter)⟩
    · rintro rfl
      rw [List.length_nil] at hle
      omega
    · by_contra hi
      have hbefore := hrun.before (Nat.pos_of_ne_zero hi)
      rw [hany, decide_eq_false_iff_not] at hbefore
      omega
  · rintro ⟨hne, rfl, rfl⟩
    refine ⟨List.length_pos_iff.2 hne, fun k _ hk => ?_, fun h0 => absurd h0 (lt_irrefl 0), ?_⟩
    · rw [hany, decide_eq_true hk]
    · rw [hany, decide_eq_false (lt_irrefl _)]

/-- The runs on the two sides of an element without `p`. -/
theorem isRun_append_cons (ha : p a = false) : IsRun p (s ++ a :: t) i j ↔
    IsRun p s i j ∨
      ∃ i' j', IsRun p t i' j' ∧ i = i' + (s.length + 1) ∧ j = j' + (s.length + 1) := by
  constructor
  · intro h
    have hlt := h.lt
    have hsep : j ≤ s.length ∨ s.length < i := by
      by_contra hin
      rw [not_or, not_le, not_lt] at hin
      have hp := h.inside s.length hin.2 hin.1
      rw [any_append_left ha le_rfl, List.getElem?_eq_none le_rfl] at hp
      cases hp
    rcases hsep with hj | hi
    · refine .inl ⟨hlt, fun k hi hk => ?_, fun hi => ?_, ?_⟩
      · rw [← h.inside k hi hk, any_append_left ha (by omega)]
      · rw [← h.before hi, any_append_left ha (by omega)]
      · rw [← h.after, any_append_left ha hj]
    · obtain ⟨i, rfl⟩ := Nat.exists_eq_add_of_le' (show s.length + 1 ≤ i from hi)
      obtain ⟨j, rfl⟩ := Nat.exists_eq_add_of_le'
        (show s.length + 1 ≤ j from Nat.le_trans hi (Nat.le_of_lt hlt))
      refine .inr ⟨i, j, ⟨by omega, fun k hik hkj => ?_, fun hpos => ?_, ?_⟩, rfl, rfl⟩
      · rw [← any_append_right (s := s) (a := a)]
        exact h.inside _ (by omega) (by omega)
      · rw [← any_append_right (s := s) (a := a)]
        have hbefore := h.before (by omega)
        rwa [show i + (s.length + 1) - 1 = i - 1 + (s.length + 1) by omega] at hbefore
      · rw [← any_append_right (s := s) (a := a)]
        exact h.after
  · rintro (h | ⟨i, j, h, rfl, rfl⟩)
    · have hle := h.le_length
      have hlt := h.lt
      refine ⟨hlt, fun k hi hk => ?_, fun hi => ?_, ?_⟩
      · rw [any_append_left ha (by omega)]
        exact h.inside k hi hk
      · rw [any_append_left ha (by omega)]
        exact h.before hi
      · rw [any_append_left ha hle]
        exact h.after
    · have hlt := h.lt
      refine ⟨by omega, fun k hi hk => ?_, fun _ => ?_, ?_⟩
      · obtain ⟨k, rfl⟩ := Nat.exists_eq_add_of_le' (show s.length + 1 ≤ k by omega)
        rw [any_append_right]
        exact h.inside k (by omega) (by omega)
      · rcases Nat.eq_zero_or_pos i with rfl | hpos
        · rw [show 0 + (s.length + 1) - 1 = s.length by omega, any_append_left ha le_rfl,
            List.getElem?_eq_none le_rfl]
          rfl
        · rw [show i + (s.length + 1) - 1 = i - 1 + (s.length + 1) by omega, any_append_right]
          exact h.before hpos
      · rw [any_append_right]
        exact h.after

/-- Two lists with an element without `p` between them. -/
theorem Spans.append_cons {l l' : List (ℕ × ℕ)} (ha : p a = false) (h : Spans p s l)
    (h' : Spans p t l') : Spans p (s ++ a :: t)
      (l ++ l'.map fun x => (x.1 + (s.length + 1), x.2 + (s.length + 1))) where
  sorted := by
    refine List.pairwise_append.2 ⟨h.sorted, List.pairwise_map.2 (h'.sorted.imp fun hxy => ?_),
      fun x hx y hy => ?_⟩
    · exact Nat.add_lt_add_right hxy _
    · obtain ⟨y, -, rfl⟩ := List.mem_map.1 hy
      have hle := ((h.mem x.1 x.2).1 hx).le_length
      show x.2 < y.1 + (s.length + 1)
      omega
  mem i j := by
    rw [isRun_append_cons ha, List.mem_append, h.mem, List.mem_map]
    refine or_congr_right ⟨?_, ?_⟩
    · rintro ⟨⟨i', j'⟩, hx, heq⟩
      obtain ⟨rfl, rfl⟩ := Prod.mk.inj heq
      exact ⟨i', j', (h'.mem i' j').1 hx, rfl, rfl⟩
    · rintro ⟨i', j', hrun, rfl, rfl⟩
      exact ⟨(i', j'), (h'.mem i' j').2 hrun, rfl⟩

theorem exists_spans_of_forall (h : ∀ a ∈ w, p a = true) : ∃ spans : List (ℕ × ℕ),
    Spans p w spans ∧ runs p w = spans.map fun x => w.extract x.1 x.2 := by
  by_cases hne : w = []
  · refine ⟨[], ⟨List.Pairwise.nil, fun i j => ?_⟩, by rw [hne]; rfl⟩
    rw [isRun_of_forall h]
    simp [hne]
  · refine ⟨[(0, w.length)], ⟨List.pairwise_singleton _ _, fun i j => ?_⟩, ?_⟩
    · rw [isRun_of_forall h]
      simp [hne]
    · rw [runs_of_forall hne h]
      simp

/-- **The runs are all of them**, from left to right. -/
theorem exists_spans (p : α → Bool) (s : List α) : ∃ spans : List (ℕ × ℕ), Spans p s spans ∧
    runs p s = spans.map fun x => s.extract x.1 x.2 := by
  induction s using split_induction p with
  | all w hw => exact exists_spans_of_forall hw
  | sep w a t hw ha ih =>
    obtain ⟨l, h, heq⟩ := exists_spans_of_forall hw
    obtain ⟨l', h', heq'⟩ := ih
    refine ⟨_, h.append_cons ha h', ?_⟩
    rw [runs_append_cons ha, heq, heq', List.map_append, List.map_map]
    congr 1
    · refine List.map_congr_left fun x hx => ?_
      have hle := ((h.mem x.1 x.2).1 hx).le_length
      rw [List.extract_eq_take_drop, List.extract_eq_take_drop, List.drop_append_of_le_length
        (by have := ((h.mem x.1 x.2).1 hx).lt; omega), List.take_append_of_le_length
        (by rw [List.length_drop]; omega)]
    · refine List.map_congr_left fun x _ => ?_
      simp only [Function.comp_apply, List.extract_eq_take_drop]
      rw [show x.1 + (w.length + 1) = w.length + (x.1 + 1) by omega, ← List.drop_drop,
        List.drop_left, List.drop_succ_cons]
      congr 1
      omega

end Runs
