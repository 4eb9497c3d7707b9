import Vdb.BTree.Sequential

/-!
# A full arena

What an insert leaves behind that throws `std::length_error`.  The pair is in its leaf, and counted,
before the first node is allocated, and nothing takes it out again.

* `BPlusTree.threw_keeps_pair` : whatever the tree, the contents have changed.
* `Stores.threw` : a well-formed tree holds the pair.
-/

namespace Vdb

namespace BTree

namespace BPlusTree

/-- The call, run alone, answers `r`. -/
def Replies (t : BPlusTree) (op : SeqOp) (r : Reply) : Prop :=
  ∃ n, ∀ fuel, n ≤ fuel → (t.perform fuel op).map Prod.snd = some r

/-- The contents of `t'` are those of `t`, as far as a caller can tell, and a removal of the pair
finds it in `t'` only if it was in `t`. -/
structure Unchanged (t t' : BPlusTree) (key : Key) (id : InternalId) : Prop where
  size : t'.size = t.size
  find : ∀ k ids, t'.Replies (.find k) (.ids ids) ↔ t.Replies (.find k) (.ids ids)
  range : ∀ lo hi out, t'.Replies (.range lo hi) (.entries out) ↔
    t.Replies (.range lo hi) (.entries out)
  remove : t'.Replies (.remove key id) (.removed true) →
    ∃ ids, t.Replies (.find key) (.ids ids) ∧ id ∈ ids

variable {t t' : BPlusTree} {g : Shape} {m : Multiset Entry} {key : Key} {id : InternalId}
  {fuel : ℕ}

/-- The size follows the pairs a call has placed. -/
theorem size_solo (op : Op) (n : ℕ) (s : BPlusTree × Pc) :
    (solo op n s).1.size + (placed op s.2).card = s.1.size + (placed op (solo op n s).2).card := by
  induction n generalizing s with
  | zero => rfl
  | succ n ih =>
    have hstep := (runSection_keeps s.1 op s.2).size
    have hrest := ih (s.1.runSection op s.2)
    rw [solo]
    omega

theorem solo_of_threw (h : t.perform fuel (.insert key id) = some (t', .lengthError)) :
    solo (.insert key id) fuel (t, .lockRoot) = (t', .threw) := by
  rw [perform] at h
  split at h
  · cases h
  · next t₁ hsolo =>
    cases h
    exact hsolo
  · cases h

/-- **An insert that throws** has changed the contents: it has counted the pair. -/
theorem threw_keeps_pair (h : t.perform fuel (.insert key id) = some (t', .lengthError)) :
    t'.size = t.size + 1 ∧ ¬ t.Unchanged t' key id := by
  have hsolo := solo_of_threw h
  have hsize := size_solo (.insert key id) fuel (t, .lockRoot)
  rw [hsolo] at hsize
  have hplaced : t'.size = t.size + 1 := hsize
  refine ⟨hplaced, fun hsame => ?_⟩
  have := hsame.size
  omega

/-- A tree whose only node is a full leaf of two pairs. -/
def fullLeaf : BPlusTree :=
  { new { nodeCapacity := 2, maxNodes := 1 } with
    nodes := Function.update (fun _ => {}) 0 { keys := [1, 2], values := [7, 8] }, size := 2 }

/-- The third insert throws, and its pair is counted. -/
theorem threw_keeps_pair_full : ∃ t' : BPlusTree,
    fullLeaf.perform 3 (.insert 3 9) = some (t', .lengthError) ∧
      t'.size = fullLeaf.size + 1 ∧ ¬ fullLeaf.Unchanged t' 3 9 :=
  ⟨_, rfl, threw_keeps_pair
    (show fullLeaf.perform 3 (.insert 3 9) = some (_, .lengthError) from rfl)⟩

/-- Two inserts into a tree of one node return and the third throws; a removal of its pair then
finds it, and so does a query. -/
theorem thrown_pair_found : ∃ t t' : BPlusTree,
    (new { nodeCapacity := 2, maxNodes := 1 }).performAll 3 [.insert 1 7, .insert 2 8] =
      some (t, [.unit, .unit]) ∧
    t.perform 3 (.insert 3 9) = some (t', .lengthError) ∧
    t.Replies (.find 3) (.ids []) ∧ t'.Replies (.find 3) (.ids [9]) ∧
    ¬ t.Unchanged t' 3 9 := by
  have hquery : ∀ (t : BPlusTree) ids, (∃ out, solo (.find 3) 2 (t, .lockRoot) = (t, .done out) ∧
      out.map Prod.snd = ids) → t.Replies (.find 3) (.ids ids) := by
    rintro t _ ⟨out, hout, rfl⟩
    refine ⟨2, fun fuel hf => ?_⟩
    obtain ⟨k, rfl⟩ := Nat.exists_eq_add_of_le hf
    have hsolo : solo (.find 3) (2 + k) (t, .lockRoot) = (t, .done out) := by
      rw [solo_add, hout, solo_ended (.inr ⟨_, rfl⟩)]
    rw [perform, hsolo]
    rfl
  refine ⟨_, _, rfl, rfl, hquery _ [] ⟨[], rfl, rfl⟩, hquery _ [9] ⟨[(3, 9)], rfl, rfl⟩, ?_⟩
  intro hsame
  cases hsame.size

end BPlusTree

variable {t t' : BPlusTree} {g : Shape} {m : Multiset Entry} {key : Key} {id : InternalId}
  {fuel : ℕ}

/-- **An insert that throws** leaves a B-link tree with the pair in a leaf, and no free node. -/
theorem Stores.threw (h : Stores t g m) (hcap : 2 ≤ t.cfg.nodeCapacity)
    (hthrew : t.perform fuel (.insert key id) = some (t', .lengthError)) :
    ∃ g', BLink t' g' ∧ entriesOf t' (g'.chain 0) = (key, id) ::ₘ m ∧ t'.isFull = true := by
  obtain ⟨hw, rfl, hsize⟩ := h
  obtain ⟨g', halone⟩ := (hw.alone hsize (.insert key id)).solo hcap fuel
  rw [BPlusTree.solo_of_threw hthrew] at halone
  refine ⟨g', halone.blink, ?_, halone.full rfl⟩
  rw [halone.contents, add_comm]
  rfl

end BTree

end Vdb
