import Mathlib.Data.List.Chain
import Mathlib.Data.List.Infix
import Mathlib.Data.List.Nodup
import Mathlib.Tactic.Common

/-!
# Threaded lists and walks

A structure whose elements point at their successor is described by the list of its elements:
`Spine.Threaded R E l` says that consecutive elements of `l` are related by `R` and that the last
one satisfies `E`.  The two edits such a structure undergoes are inserting an element behind
another (`Threaded.insert`) and unlinking one (`Threaded.unlink`); each asks only for the relations
at the seam and that the rest is unchanged.

`Spine.Walk next stop a p` says that following `next` from `a` first meets `stop` at `p`.  A walk
survives when the element it passes through is split in two (`Walk.split`) and when an element is
unlinked (`Walk.bypass`), and it visits nothing twice (`Walk.Visits.nodup`).
-/

namespace Spine

variable {α : Type*}

/-- Consecutive elements of `l` are related by `R`, and the last one satisfies `E`. -/
structure Threaded (R : α → α → Prop) (E : α → Prop) (l : List α) : Prop where
  links : l.IsChain R
  ends : ∀ a ∈ l.getLast?, E a

namespace Threaded

variable {R R' : α → α → Prop} {E E' : α → Prop} {pre post l : List α} {a b : α}

theorem singleton (h : E a) : Threaded R E [a] :=
  ⟨.singleton a, by simpa using h⟩

theorem mono (h : Threaded R E l) (hR : ∀ x ∈ l, ∀ y ∈ l, R x y → R' x y)
    (hE : ∀ x ∈ l, E x → E' x) : Threaded R' E' l :=
  ⟨h.links.imp_of_mem_imp fun x y hx hy => hR x hx y hy,
    fun a ha => hE a (List.mem_of_getLast? ha) (h.ends a ha)⟩

theorem rel (h : Threaded R E (pre ++ a :: b :: post)) : R a b :=
  (List.isChain_append_cons_cons.1 h.links).2.1

theorem last (h : Threaded R E (pre ++ [a])) : E a :=
  h.ends a (by simp)

theorem only (h : Threaded R E [a]) : E a :=
  h.ends a rfl

theorem tail (h : Threaded R E (pre ++ a :: post)) : Threaded R E (a :: post) :=
  ⟨h.links.right_of_append, fun x hx => h.ends x (by
    rw [List.getLast?_append_of_ne_nil _ (by simp)]; exact hx)⟩

/-- Where `f` of every member is `g` of the next one, and `f` of the last is `v`. -/
theorem map_next {β : Type*} {f g : α → β} {v : β}
    (h : Threaded (fun a b => f a = g b) (fun a => f a = v) (a :: l)) :
    (a :: l).map f = l.map g ++ [v] := by
  induction l generalizing a with
  | nil => exact congrArg (· :: []) h.only
  | cons b l ih =>
    have hab : f a = g b := (List.isChain_cons_cons.1 h.links).1
    have hcut : Threaded (fun a b => f a = g b) (fun a => f a = v) ([a] ++ b :: l) := h
    rw [List.map_cons, ih hcut.tail, hab]
    rfl

/-- Insert `b` behind `a`. -/
theorem insert (h : Threaded R E (pre ++ a :: post))
    (hpre : ∀ x ∈ pre, ∀ y ∈ pre ++ [a], R x y → R' x y) (hab : R' a b)
    (hb : ∀ y ∈ post.head?, R a y → R' b y) (hbE : post = [] → E a → E' b)
    (hpost : ∀ x ∈ post, ∀ y ∈ post, R x y → R' x y) (hpostE : ∀ x ∈ post, E x → E' x) :
    Threaded R' E' (pre ++ a :: b :: post) := by
  obtain ⟨h1, h2⟩ := List.isChain_split.1 h.links
  refine ⟨List.isChain_append_cons_cons.2 ⟨?_, hab, List.isChain_cons.2 ⟨?_, ?_⟩⟩, ?_⟩
  · refine List.isChain_append.2 ⟨?_, .singleton a, ?_⟩
    · exact (h1.left_of_append).imp_of_mem_imp fun x y hx hy =>
        hpre x hx y (List.mem_append_left _ hy)
    · intro x hx y hy
      obtain rfl : a = y := by simpa using hy
      exact hpre x (List.mem_of_getLast? hx) a (by simp)
        ((List.isChain_append.1 h1).2.2 x hx a (by simp))
  · exact fun y hy => hb y hy ((List.isChain_cons.1 h2).1 y hy)
  · exact (List.isChain_cons.1 h2).2.imp_of_mem_imp fun x y hx hy => hpost x hx y hy
  · cases post with
    | nil => simpa using hbE rfl (h.ends a (by simp))
    | cons c post =>
      intro x hx
      have hx' : x ∈ (c :: post).getLast? := by simpa using hx
      exact hpostE x (List.mem_of_getLast? hx') (h.ends x (by simpa using hx'))

/-- Unlink `b`, whose neighbour `a` takes over its place. -/
theorem unlink (h : Threaded R E (pre ++ a :: b :: post))
    (hpre : ∀ x ∈ pre, ∀ y ∈ pre ++ [a], R x y → R' x y)
    (ha : ∀ y ∈ post.head?, R b y → R' a y) (haE : post = [] → E b → E' a)
    (hpost : ∀ x ∈ post, ∀ y ∈ post, R x y → R' x y) (hpostE : ∀ x ∈ post, E x → E' x) :
    Threaded R' E' (pre ++ a :: post) := by
  obtain ⟨h1, -, h2⟩ := List.isChain_append_cons_cons.1 h.links
  refine ⟨List.isChain_split.2 ⟨?_, List.isChain_cons.2 ⟨?_, ?_⟩⟩, ?_⟩
  · refine List.isChain_append.2 ⟨?_, .singleton a, ?_⟩
    · exact (h1.left_of_append).imp_of_mem_imp fun x y hx hy =>
        hpre x hx y (List.mem_append_left _ hy)
    · intro x hx y hy
      obtain rfl : a = y := by simpa using hy
      exact hpre x (List.mem_of_getLast? hx) a (by simp)
        ((List.isChain_append.1 h1).2.2 x hx a (by simp))
  · exact fun y hy => ha y hy ((List.isChain_cons.1 h2).1 y hy)
  · exact (List.isChain_cons.1 h2).2.imp_of_mem_imp fun x y hx hy => hpost x hx y hy
  · cases post with
    | nil => simpa using haE rfl (h.ends b (by simp))
    | cons c post =>
      intro x hx
      have hx' : x ∈ (c :: post).getLast? := by simpa using hx
      exact hpostE x (List.mem_of_getLast? hx') (h.ends x (by simpa using hx'))

end Threaded

/-- Following `next` from `a`, the first element that satisfies `stop` is `p`. -/
inductive Walk (next : α → Option α) (stop : α → Prop) : α → α → Prop
  | here {p : α} : stop p → Walk next stop p p
  | step {a b p : α} : ¬ stop a → next a = some b → Walk next stop b p → Walk next stop a p

namespace Walk

variable {next next' : α → Option α} {stop stop' : α → Prop} {a p q : α}

theorem stop_end (h : Walk next stop a p) : stop p := by
  induction h with
  | here h => exact h
  | step _ _ _ ih => exact ih

/-- A walk only depends on the elements it can reach. -/
theorem congr (S : α → Prop) (hS : ∀ x y, S x → next x = some y → S y)
    (hnext : ∀ x, S x → next' x = next x) (hstop : ∀ x, S x → (stop' x ↔ stop x))
    (h : Walk next stop a p) (ha : S a) : Walk next' stop' a p := by
  induction h with
  | here h => exact .here ((hstop _ ha).2 h)
  | step hn he _ ih =>
    exact .step (fun h => hn ((hstop _ ha).1 h)) ((hnext _ ha).trans he) (ih (hS _ _ ha he))

/-- When `q` is split into `q` and `new`, a walk still ends, possibly at `new`. -/
theorem split {new : α} (hq : next' q = some new) (hnew : next' new = next q)
    (hstopq : stop q ↔ stop' q ∨ stop' new)
    (hnext : ∀ x, x ≠ q → x ≠ new → next' x = next x)
    (hstop : ∀ x, x ≠ q → x ≠ new → (stop' x ↔ stop x))
    (hfresh : ∀ x, next x ≠ some new) (hne : q ≠ new) (h : Walk next stop a p) (ha : a ≠ new) :
    ∃ p', Walk next' stop' a p' ∧ (p' = p ∨ p' = new ∧ p = q) := by
  induction h with
  | @here a h =>
    by_cases haq : a = q
    · subst haq
      by_cases hs : stop' a
      · exact ⟨a, .here hs, .inl rfl⟩
      · exact ⟨new, .step hs hq (.here ((hstopq.1 h).resolve_left hs)), .inr ⟨rfl, rfl⟩⟩
    · exact ⟨a, .here ((hstop a haq ha).2 h), .inl rfl⟩
  | @step a b p hn he _ ih =>
    have hb : b ≠ new := fun h => hfresh a (by rw [he, h])
    obtain ⟨p', hw, hp⟩ := ih hb
    by_cases haq : a = q
    · subst haq
      have h1 : ¬ stop' a := fun h => hn (hstopq.2 (.inl h))
      have h2 : ¬ stop' new := fun h => hn (hstopq.2 (.inr h))
      exact ⟨p', .step h1 hq (.step h2 (hnew.trans he) hw), hp⟩
    · exact ⟨p', .step (fun h => hn ((hstop a haq ha).1 h)) ((hnext a haq ha).trans he) hw, hp⟩

/-- When `b`, behind `a`, is unlinked, a walk that does not end at `b` still ends where it did. -/
theorem bypass {b : α} (hab : next a = some b) (ha : next' a = next b) (hne : b ≠ a)
    (hnext : ∀ x, x ≠ a → next' x = next x) (hstop : ∀ x, stop' x ↔ stop x) (hp : p ≠ b)
    (h : Walk next stop q p) : Walk next' stop' q p := by
  induction h with
  | here h => exact .here ((hstop _).2 h)
  | @step x y p hn he _ ih =>
    have ih := ih hp
    by_cases hx : x = a
    · subst hx
      obtain rfl : b = y := by rw [hab] at he; simpa using he
      cases ih with
      | here _ => exact absurd rfl hp
      | @step _ z _ _ hz hw =>
        exact .step (fun h => hn ((hstop _).1 h)) (by rw [ha, ← hnext b hne, hz]) hw
    · exact .step (fun h => hn ((hstop _).1 h)) ((hnext x hx).trans he) ih

/-- A walk visits these elements on its way to `p`. -/
def Visits (next : α → Option α) (stop : α → Prop) (p : α) : α → List α → Prop
  | a, [] => stop a ∧ a = p
  | a, b :: l => ¬ stop a ∧ next a = some b ∧ Visits next stop p b l

theorem exists_visits (h : Walk next stop a p) : ∃ l, Visits next stop p a l := by
  induction h with
  | here h => exact ⟨[], h, rfl⟩
  | step hn he _ ih =>
    obtain ⟨l, hl⟩ := ih
    exact ⟨_ :: l, hn, he, hl⟩

theorem Visits.unique {l l' : List α} (h : Visits next stop p a l) (h' : Visits next stop p a l') :
    l = l' := by
  induction l generalizing a l' with
  | nil =>
    cases l' with
    | nil => rfl
    | cons b l' => exact absurd h.1 h'.1
  | cons b l ih =>
    cases l' with
    | nil => exact absurd h'.1 h.1
    | cons b' l' =>
      obtain rfl : b = b' := Option.some.inj (h.2.1.symm.trans h'.2.1)
      rw [ih h.2.2 h'.2.2]

/-- From an element on the way the rest is shorter. -/
theorem Visits.rest {l : List α} {x : α} (h : Visits next stop p a l) (hx : x ∈ l) :
    ∃ l', Visits next stop p x l' ∧ l'.length < l.length := by
  induction l generalizing a with
  | nil => cases hx
  | cons b l ih =>
    rcases List.mem_cons.1 hx with rfl | hx
    · exact ⟨l, h.2.2, Nat.lt_succ_self _⟩
    · obtain ⟨l', hl', hlen⟩ := ih h.2.2 hx
      exact ⟨l', hl', hlen.trans (Nat.lt_succ_self _)⟩

/-- A walk visits nothing twice: it would never end. -/
theorem Visits.nodup {l : List α} (h : Visits next stop p a l) : (a :: l).Nodup := by
  induction l generalizing a with
  | nil => exact List.nodup_singleton a
  | cons b l ih =>
    refine List.nodup_cons.2 ⟨fun ha => ?_, ih h.2.2⟩
    obtain ⟨l', hl', hlen⟩ := h.rest ha
    rw [h.unique hl'] at hlen
    exact lt_irrefl _ hlen

theorem Visits.mem {l : List α} {S : α → Prop} (hS : ∀ x y, next x = some y → S y)
    (h : Visits next stop p a l) (ha : S a) : ∀ x ∈ a :: l, S x := by
  induction l generalizing a with
  | nil => exact fun x hx => List.mem_singleton.1 hx ▸ ha
  | cons b l ih =>
    intro x hx
    rcases List.mem_cons.1 hx with rfl | hx
    · exact ha
    · exact ih h.2.2 (hS _ _ h.2.1) x hx

end Walk

end Spine
