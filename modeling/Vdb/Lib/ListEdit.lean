import Mathlib.Data.List.InsertIdx
import Mathlib.Data.List.Nodup
import Mathlib.Data.List.Infix
import Mathlib.Algebra.Order.Group.Multiset
import Mathlib.Tactic.Common

/-!
# Edits of lists at one place

Inserting an element at a place, the lists this leaves on both sides, and how it acts on zipped,
sorted and concatenated lists.
-/

namespace ListEdit

variable {α β : Type*}

theorem insertIdx_eq (l : List α) {i : ℕ} (hi : i ≤ l.length) (a : α) :
    l.insertIdx i a = l.take i ++ a :: l.drop i := by
  induction l generalizing i with
  | nil => obtain rfl : i = 0 := by simpa using hi
           simp
  | cons x l ih =>
    cases i with
    | zero => simp
    | succ i => simpa using ih (by simpa using hi)

theorem insertIdx_append (A B : List α) (a : α) : (A ++ B).insertIdx A.length a = A ++ a :: B := by
  rw [insertIdx_eq _ (by simp)]; simp

theorem insertIdx_append_succ (A B : List α) (a b : α) :
    (A ++ a :: B).insertIdx (A.length + 1) b = A ++ a :: b :: B := by
  have := insertIdx_append (A ++ [a]) B b
  simpa using this

theorem idxOf_append [DecidableEq α] {A B : List α} {a : α} (h : a ∉ A) :
    (A ++ a :: B).idxOf a = A.length := by
  rw [List.idxOf_append_of_notMem h]; simp

theorem zip_insertIdx {xs : List α} {ys : List β} (hl : ys.length = xs.length) {i : ℕ}
    (hi : i ≤ xs.length) (a : α) (b : β) :
    (xs.insertIdx i a).zip (ys.insertIdx i b) = (xs.zip ys).insertIdx i (a, b) := by
  rw [insertIdx_eq _ hi, insertIdx_eq _ (by omega), insertIdx_eq _ (by simp; omega),
    List.zip_append (by simp; omega), List.zip_cons_cons]
  simp only [List.zip, List.take_zipWith, List.drop_zipWith]

/-- Inserting between what is at most `a` and what is at least `a` keeps a list sorted. -/
theorem pairwise_insert [Preorder α] {A B : List α} {a : α} (h : (A ++ B).Pairwise (· ≤ ·))
    (hA : ∀ x ∈ A, x ≤ a) (hB : ∀ x ∈ B, a ≤ x) : (A ++ a :: B).Pairwise (· ≤ ·) := by
  obtain ⟨h1, h2, h3⟩ := List.pairwise_append.1 h
  refine List.pairwise_append.2 ⟨h1, List.pairwise_cons.2 ⟨hB, h2⟩, fun x hx y hy => ?_⟩
  rcases List.mem_cons.1 hy with rfl | hy
  · exact hA x hx
  · exact h3 x hx y hy

/-- Two ways to cut one list at a member that occurs once agree. -/
theorem cut_unique {A B A' B' : List α} {a : α} (h : A ++ a :: B = A' ++ a :: B')
    (hn : (A ++ a :: B).Nodup) : A = A' ∧ B = B' := by
  have hA : a ∉ A := fun ha =>
    (List.nodup_append.1 hn).2.2 a ha a List.mem_cons_self rfl
  have hA' : a ∉ A' := fun ha =>
    (List.nodup_append.1 (h ▸ hn)).2.2 a ha a List.mem_cons_self rfl
  have h1 : A.length = A'.length := by
    classical
    have := congrArg (List.idxOf a) h
    rwa [idxOf_append hA, idxOf_append hA'] at this
  obtain ⟨h2, h3⟩ := List.append_inj h h1
  exact ⟨h2, by simpa using h3⟩

/-- A pair in order, cut at its second member. -/
theorem cut_of_pair {l A B : List α} {a b : α} (hp : [a, b].Sublist l) (hc : l = A ++ b :: B)
    (hn : l.Nodup) : a ∈ A := by
  subst hc
  obtain ⟨l₁, l₂, he, h1, h2⟩ := List.sublist_append_iff.1 hp
  cases l₁ with
  | nil =>
    obtain rfl : [a, b] = l₂ := by simpa using he
    exfalso
    have hB : b ∉ B := fun hb => by
      have := (List.nodup_append.1 hn).2.1
      exact (List.nodup_cons.1 this).1 hb
    cases h2 with
    | cons _ h => exact hB (h.subset (by simp))
    | cons_cons _ h => exact hB (h.subset (by simp))
  | cons x l₁ =>
    obtain ⟨rfl, -⟩ := by simpa using he
    exact h1.subset (by simp)

/-- A concatenation in which two neighbouring pieces share out what they have anew. -/
theorem flatMap_pair {A B : List α} {a b : α} {f f' : α → List β} (hn : (A ++ a :: b :: B).Nodup)
    (h : ∀ x ∈ A ++ a :: b :: B, x ≠ a → x ≠ b → f' x = f x) (hab : f' a ++ f' b = f a ++ f b) :
    (A ++ a :: b :: B).flatMap f' = (A ++ a :: b :: B).flatMap f := by
  obtain ⟨-, h2, h3⟩ := List.nodup_append.1 hn
  obtain ⟨h4, h5⟩ := List.nodup_cons.1 h2
  have hA : A.flatMap f' = A.flatMap f := List.flatMap_congr fun x hx =>
    h x (by simp [hx]) (h3 x hx a (by simp)) (h3 x hx b (by simp))
  have hB : B.flatMap f' = B.flatMap f := List.flatMap_congr fun x hx =>
    h x (by simp [hx]) (fun he => h4 (by rw [← he]; simp [hx]))
      fun he => (List.nodup_cons.1 h5).1 (he ▸ hx)
  simp only [List.flatMap_append, List.flatMap_cons, hA, hB, ← List.append_assoc]
  rw [List.append_assoc (A.flatMap f), hab]
  simp

/-- A concatenation in which one piece takes over the next. -/
theorem flatMap_join {A B : List α} {a b : α} {f f' : α → List β} (hn : (A ++ a :: b :: B).Nodup)
    (h : ∀ x ∈ A ++ a :: b :: B, x ≠ a → x ≠ b → f' x = f x) (hab : f' a = f a ++ f b) :
    (A ++ a :: B).flatMap f' = (A ++ a :: b :: B).flatMap f := by
  obtain ⟨-, h2, h3⟩ := List.nodup_append.1 hn
  obtain ⟨h4, h5⟩ := List.nodup_cons.1 h2
  have hA : A.flatMap f' = A.flatMap f := List.flatMap_congr fun x hx =>
    h x (by simp [hx]) (h3 x hx a (by simp)) (h3 x hx b (by simp))
  have hB : B.flatMap f' = B.flatMap f := List.flatMap_congr fun x hx =>
    h x (by simp [hx]) (fun he => h4 (by rw [← he]; simp [hx]))
      fun he => (List.nodup_cons.1 h5).1 (he ▸ hx)
  simp only [List.flatMap_append, List.flatMap_cons, hA, hB, hab, List.append_assoc]

/-! ### Putting an element behind another -/

section Behind

variable [DecidableEq α]

/-- Put `b` behind `a`. -/
def behind (a b : α) (l : List α) : List α :=
  l.flatMap fun x => if x = a then [a, b] else [x]

variable {a b x : α} {l A B : List α}

@[simp] theorem behind_nil : behind a b [] = [] := rfl

theorem behind_append : behind a b (A ++ B) = behind a b A ++ behind a b B := by
  simp [behind]

theorem behind_cons : behind a b (x :: l) =
    x :: ((if x = a then [b] else []) ++ behind a b l) := by
  simp only [behind, List.flatMap_cons]
  split_ifs with h
  · subst h; rfl
  · rfl

theorem behind_of_notMem (h : a ∉ l) : behind a b l = l := by
  induction l with
  | nil => rfl
  | cons x l ih =>
    obtain ⟨hx, hl⟩ := not_or.1 (fun hc => h (List.mem_cons.2 hc))
    rw [behind_cons, if_neg (Ne.symm hx), ih hl, List.nil_append]

theorem behind_cut (h : (A ++ a :: B).Nodup) : behind a b (A ++ a :: B) = A ++ a :: b :: B := by
  obtain ⟨-, h2, h3⟩ := List.nodup_append.1 h
  have hA : a ∉ A := fun ha => h3 a ha a List.mem_cons_self rfl
  rw [behind_append, behind_cons, if_pos rfl, behind_of_notMem hA,
    behind_of_notMem (List.nodup_cons.1 h2).1, List.singleton_append]

theorem mem_behind : x ∈ behind a b l ↔ x ∈ l ∨ x = b ∧ a ∈ l := by
  induction l with
  | nil => simp
  | cons y l ih =>
    rw [behind_cons]
    by_cases h : y = a
    · subst h; simp only [if_pos, List.mem_cons, List.mem_append, ih]; grind
    · simp only [if_neg h, List.nil_append, List.mem_cons, ih]; grind

theorem sublist_behind : l.Sublist (behind a b l) := by
  induction l with
  | nil => exact List.Sublist.refl _
  | cons x l ih => rw [behind_cons]; exact (ih.trans (List.sublist_append_right _ _)).cons_cons x

theorem pair_sublist_behind (h : a ∈ l) : [a, b].Sublist (behind a b l) := by
  induction l with
  | nil => cases h
  | cons x l ih =>
    rw [behind_cons]
    by_cases hx : x = a
    · subst hx
      rw [if_pos rfl]
      exact ((List.nil_sublist _).cons_cons b).cons_cons x
    · have hl : a ∈ l := (List.mem_cons.1 h).resolve_left (Ne.symm hx)
      rw [if_neg hx]
      exact (ih hl).cons x

/-- What was filtered out stays out, and with it the new element. -/
theorem filter_behind {p q : α → Bool} (hb : q b = false) (h : ∀ x ∈ l, q x = p x) :
    (behind a b l).filter q = l.filter p := by
  induction l with
  | nil => rfl
  | cons x l ih =>
    have ih := ih fun y hy => h y (List.mem_cons_of_mem _ hy)
    have hnew : (if x = a then [b] else []).filter q = [] := by
      split_ifs <;> simp [hb]
    rw [behind_cons, List.filter_cons, List.filter_append, hnew, ih, h x List.mem_cons_self,
      List.nil_append, List.filter_cons]

theorem flatMap_behind_comm (f : β → List α) (xs : List β) :
    behind a b (xs.flatMap f) = xs.flatMap fun x => behind a b (f x) := by
  induction xs with
  | nil => rfl
  | cons x xs ih => rw [List.flatMap_cons, behind_append, ih, List.flatMap_cons]

theorem insertIdx_idxOf_succ (h : a ∈ l) (hn : l.Nodup) :
    l.insertIdx (l.idxOf a + 1) b = behind a b l := by
  obtain ⟨A, B, rfl⟩ := List.append_of_mem h
  have hA : a ∉ A := fun ha => (List.nodup_append.1 hn).2.2 a ha a List.mem_cons_self rfl
  rw [idxOf_append hA, insertIdx_append_succ, behind_cut hn]

/-- Letting one more element `b` through a filter puts it behind `a`, when nothing that passes
lies between them. -/
theorem filter_notMem_behind {l out : List α} {a b : α} (hn : l.Nodup)
    (hab : [a, b].Sublist l) (ha : a ∉ out) (hb : b ∉ out)
    (hM : ∀ A M B, l = A ++ a :: (M ++ b :: B) → ∀ x ∈ M, x ∈ out) :
    l.filter (· ∉ out) = behind a b (l.filter (· ∉ b :: out)) := by
  obtain ⟨C, B, hC⟩ := List.append_of_mem (hab.subset (a := b) (by simp))
  obtain ⟨A, M, rfl⟩ := List.append_of_mem (cut_of_pair hab hC hn)
  have hd : l = A ++ a :: (M ++ b :: B) := by rw [hC]; simp
  have hMnil : M.filter (· ∉ out) = [] :=
    List.filter_eq_nil_iff.2 fun x hx => by simp [hM A M B hd x hx]
  have hsame : ∀ xs : List α, b ∉ xs → xs.filter (· ∉ b :: out) = xs.filter (· ∉ out) := by
    intro xs hxs
    refine List.filter_congr fun x hx => ?_
    have : x ≠ b := fun he => hxs (he ▸ hx)
    simp [this]
  have hn' := hn
  rw [hd, List.nodup_append] at hn'
  obtain ⟨-, h2, h3⟩ := hn'
  obtain ⟨h4, h5⟩ := List.nodup_cons.1 h2
  obtain ⟨-, h6, h7⟩ := List.nodup_append.1 h5
  have hbA : b ∉ A := fun h => h3 b h b (by simp) rfl
  have hbM : b ∉ M := fun h => h7 b h b List.mem_cons_self rfl
  have hbB : b ∉ B := (List.nodup_cons.1 h6).1
  have hne : a ≠ b := fun h => h4 (by rw [h]; simp)
  have hcut : l.filter (· ∉ b :: out) = A.filter (· ∉ out) ++ a :: B.filter (· ∉ out) := by
    rw [hd, List.filter_append, List.filter_cons, List.filter_append, List.filter_cons,
      hsame A hbA, hsame M hbM, hsame B hbB, hMnil]
    simp [ha, hne]
  rw [hcut, behind_cut]
  · rw [hd, List.filter_append, List.filter_cons, List.filter_append, List.filter_cons, hMnil]
    simp [ha, hb]
  · rw [← hcut]
    exact hn.filter _

theorem nodup_behind (h : l.Nodup) (hb : b ∉ l) : (behind a b l).Nodup := by
  by_cases ha : a ∈ l
  · obtain ⟨A, B, rfl⟩ := List.append_of_mem ha
    have hp : (A ++ a :: b :: B).Perm (b :: (A ++ a :: B)) := by
      simpa using @List.perm_middle _ b (A ++ [a]) B
    rw [behind_cut h]
    exact hp.nodup_iff.2 (List.nodup_cons.2 ⟨hb, h⟩)
  · rwa [behind_of_notMem ha]

/-- A concatenation in which the piece of `a` is shared out between `a` and `b`. -/
theorem flatMap_behind {f f' : α → List β} (h : ∀ x ∈ l, x ≠ a → f' x = f x)
    (ha : a ∈ l → f a = f' a ++ f' b) : (behind a b l).flatMap f' = l.flatMap f := by
  induction l with
  | nil => rfl
  | cons x l ih =>
    have ih := ih (fun y hy => h y (List.mem_cons_of_mem _ hy))
      fun hl => ha (List.mem_cons_of_mem _ hl)
    rw [behind_cons, List.flatMap_cons, List.flatMap_append, ih, List.flatMap_cons]
    by_cases hx : x = a
    · subst hx
      rw [if_pos rfl, ha List.mem_cons_self, List.flatMap_singleton, List.append_assoc]
    · rw [if_neg hx, h x List.mem_cons_self hx, List.flatMap_nil, List.nil_append]

end Behind

end ListEdit
