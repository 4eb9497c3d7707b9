import Vdb.BTree.Concurrent
import Vdb.BTree.Sequential
import Vdb.Lib.Run

/-!
# When all inserts have finished

Concurrent inserts leave a B-link tree in any case.  Whether it is also a tree that `remove` may
work on depends on the order in which the splits of one node reach its parent: if every splice is
in order (`System.RunInOrder`) the finished tree is well-formed and answers every later run of calls
as the multiset of the inserted pairs (`System.sequential_after`).  In `swappedSplices` the two
splits of one leaf reach the root in the other order; the separators of the root are then not
sorted, and `remove` misses a pair.
-/

namespace Vdb

namespace BTree

namespace System

variable (s : System)

/-- The new nodes that running calls have not yet linked from above. -/
def pending : List NodeId := s.calls.flatMap fun c => c.pc.pendingRight.toList

/-- The nodes that running calls still have to tell their parent. -/
def owed : List NodeId := s.calls.flatMap fun c => c.pc.owed

/-- The splice this action may make is in order, and a new root fits into the arena. -/
def StepInOrder : Action → Prop
  | .invoke _ => True
  | .run i => ∀ c ∈ s.calls[i]?, s.tree.InOrder c.pc

instance (s : System) : (a : Action) → Decidable (s.StepInOrder a)
  | .invoke _ => .isTrue trivial
  | .run i => inferInstanceAs (Decidable (∀ c ∈ s.calls[i]?, s.tree.InOrder c.pc))

/-- Every action of the run is in order where it happens. -/
abbrev RunInOrder (s : System) (acts : List Action) : Prop := Run.Along act StepInOrder s acts

/-- What holds of every system reached in order. -/
structure Orderly (s : System) (cfg : BTreeConfig) (g : Shape) : Prop where
  cfg : s.tree.cfg = cfg
  inv : s.Inv 0 (fun _ => 0) g
  size : s.tree.size = s.inserted.card
  tidy : Tidy s.tree g s.pending s.owed

variable {s} {cfg : BTreeConfig} {g : Shape}

theorem orderly_new (cfg : BTreeConfig) :
    (new cfg).Orderly cfg ⟨0, fun ℓ => if ℓ = 0 then [0] else [], fun _ => none⟩ :=
  ⟨rfl, inv_new cfg, rfl, (wellFormed_iff.1 (wellFormed_new cfg)).2⟩

theorem Orderly.invoke (h : s.Orderly cfg g) (op : Op) : (s.act (.invoke op)).Orderly cfg g where
  cfg := h.cfg
  inv := h.inv.invoke op (Multiset.zero_le _)
  size := by
    refine h.size.trans ?_
    cases op <;> simp [inserted, act, placed]
  tidy := by
    have hp : (s.act (.invoke op)).pending = s.pending := by
      simp [pending, act, Pc.pendingRight]
    have ho : (s.act (.invoke op)).owed = s.owed := by
      simp [owed, act, Pc.owed]
    rw [hp, ho]
    exact h.tidy

theorem getElem?_of_mem_rest {calls A B : List Call} {c c' : Call} (h : calls = A ++ c :: B)
    (hc : c' ∈ A ++ B) : ∃ j, A.length ≠ j ∧ calls[j]? = some c' := by
  rcases List.mem_append.1 hc with hc | hc
  · obtain ⟨j, hlt, hj⟩ := List.getElem_of_mem hc
    exact ⟨j, hlt.ne', by rw [h, List.getElem?_append_left hlt, List.getElem?_eq_getElem hlt, hj]⟩
  · obtain ⟨j, hj⟩ := List.getElem?_of_mem hc
    refine ⟨A.length + 1 + j, by omega, ?_⟩
    rw [h, List.getElem?_append_right (by omega), Nat.add_assoc, Nat.add_sub_cancel_left,
      Nat.add_comm, List.getElem?_cons_succ, hj]

/-- A section in order keeps the system orderly. -/
theorem Orderly.run (h : s.Orderly cfg g) (hcap : 2 ≤ cfg.nodeCapacity) {i : ℕ}
    (hin : s.StepInOrder (.run i)) : ∃ g', (s.act (.run i)).Orderly cfg g' := by
  cases hc : s.calls[i]? with
  | none => exact ⟨g, by simpa [act, hc] using h⟩
  | some c =>
    obtain ⟨A, B, hAB, hA⟩ := exists_cut hc
    have hinv := h.inv.step hc
    have hkeeps := runSection_keeps s.tree c.op c.pc
    have hact : s.act (.run i) = ⟨(s.tree.runSection c.op c.pc).1,
        A ++ ⟨c.op, (s.tree.runSection c.op c.pc).2⟩ :: B⟩ := by
      rw [act_run hc, hAB, ← hA, List.set_append_right _ _ le_rfl, Nat.sub_self, List.set_cons_zero]
    rw [hact] at hinv ⊢
    refine ⟨_, hkeeps.cfg.trans h.cfg, hinv, ?_, ?_⟩
    · have hsize := h.size
      have hsec := hkeeps.size
      rw [inserted, hAB] at hsize
      rw [inserted]
      simp only [List.map_append, List.map_cons, List.sum_append, List.sum_cons,
        Multiset.card_add] at hsize ⊢
      omega
    · -- what the other calls have pending and owed
      set pend := (A ++ B).flatMap fun c => c.pc.pendingRight.toList with hpend
      set owed := (A ++ B).flatMap fun c => c.pc.owed with howed
      have hother : ∀ r ∈ pend, ∃ j c', i ≠ j ∧ s.calls[j]? = some c' ∧ r ∈ c'.pc.pendingRight := by
        intro r hr
        obtain ⟨c', hc', hr⟩ := List.mem_flatMap.1 hr
        obtain ⟨j, hij, hj⟩ := getElem?_of_mem_rest hAB hc'
        exact ⟨j, c', hA ▸ hij, hj, Option.mem_toList.1 hr⟩
      have htidy : Tidy s.tree g (c.pc.pendingRight.toList ++ pend) (c.pc.owed ++ owed) := by
        refine h.tidy.congr (fun x => ?_) fun x hx => ?_
        · simp only [pending, hAB, hpend, List.flatMap_append, List.flatMap_cons, List.mem_append]
          tauto
        · simp only [System.owed, hAB, List.flatMap_append, List.flatMap_cons,
            List.mem_append] at hx
          simp only [howed, List.flatMap_append, List.mem_append]
          tauto
      have hnext := runSection_tidy h.inv.blink (h.cfg ▸ hcap) (h.inv.call i c hc) (hin c hc)
        (fun r hr => by
          obtain ⟨j, c', -, hj, hr⟩ := hother r hr
          obtain ⟨ℓ, hmem⟩ := pendingRight_mem (h.inv.call j c' hj) hr
          exact h.inv.blink.lt_count ℓ r hmem)
        (fun r hr hm => by
          obtain ⟨j, c', hij, hj, hr'⟩ := hother r hm
          exact h.inv.pending i j c c' hij hc hj r hr hr') htidy
      refine hnext.congr (fun x => ?_) fun x hx => ?_
      · simp only [pending, hpend, List.flatMap_append, List.flatMap_cons, List.mem_append]
        tauto
      · simp only [howed, List.flatMap_append, List.mem_append] at hx
        simp only [System.owed, List.flatMap_append, List.flatMap_cons, List.mem_append]
        tauto

theorem Orderly.exec (h : s.Orderly cfg g) (hcap : 2 ≤ cfg.nodeCapacity) {acts : List Action}
    (hin : s.RunInOrder acts) : ∃ g', (s.exec acts).Orderly cfg g' := by
  refine Run.Along.invariant (I := fun s => ∃ g, s.Orderly cfg g) ?_ ⟨g, h⟩ hin
  rintro s a ⟨g, h⟩ hin
  cases a with
  | invoke op => exact ⟨g, h.invoke op⟩
  | run i => exact h.run hcap hin

/-- Once every call has ended, nothing is pending and nothing owed. -/
theorem Orderly.stores (h : s.Orderly cfg g) (hend : ∀ c ∈ s.calls, c.pc.Ended) :
    Stores s.tree g s.inserted := by
  have hp : s.pending = [] := List.flatMap_eq_nil_iff.2 fun c hc => by
    rcases hend c hc with he | ⟨out, he⟩ <;> rw [he] <;> rfl
  have ho : s.owed = [] := List.flatMap_eq_nil_iff.2 fun c hc => by
    rcases hend c hc with he | ⟨out, he⟩ <;> rw [he] <;> rfl
  have ht := h.tidy
  rw [hp, ho] at ht
  exact ⟨wellFormed_iff.2 ⟨h.inv.blink, ht⟩, h.inv.contents.trans (zero_add _), h.size⟩

/-- **Sequential use after concurrent use.**  In a run whose every splice is in order, whenever all
calls have ended the tree is in shape, and every later run of calls comes to an end and answers as
the multiset of the inserted pairs. -/
theorem sequential_after (cfg : BTreeConfig) (hcap : 2 ≤ cfg.nodeCapacity) (acts : List Action)
    (hin : (new cfg).RunInOrder acts) (hend : ∀ c ∈ ((new cfg).exec acts).calls, c.pc.Ended) :
    ((new cfg).exec acts).tree.InShape ∧
    ∀ ops, ∃ n t rs,
      (∀ fuel, n ≤ fuel → ((new cfg).exec acts).tree.performAll fuel ops = some (t, rs)) ∧
      RunOk ((new cfg).exec acts).inserted ops t rs := by
  obtain ⟨g, h⟩ := (orderly_new cfg).exec hcap hin
  have hs := h.stores hend
  refine ⟨hs.wellFormed.inShape, hs.performAll ?_⟩
  rwa [h.cfg]

/-- A whole insert that nothing interrupts. -/
def wholeInsert (i : ℕ) (key : Key) : List Action :=
  .invoke (.insert key key) :: List.replicate 6 (.run i)

/-- The leaf of the keys up to `20` is split by the insert of `6`, then by the insert of `2`, and
the second split reaches the root first. -/
def swappedSplices : List Action :=
  [(0, 10), (1, 20), (2, 30), (3, 40), (4, 5)].flatMap (fun p => wholeInsert p.1 p.2) ++
    [.invoke (.insert 6 6), .run 5, .run 5, .run 5] ++ wholeInsert 6 1 ++ wholeInsert 7 2 ++
    List.replicate 4 (.run 5)

/-- Swapped splices leave the root with the separators `6`, `2`, `20`; removing `10` then looks in
the leaf of `5` and `6`, goes on to the leaf of `30`, and finds nothing. -/
theorem swappedSplices_lose : ∃ s, s = (new { nodeCapacity := 3 }).exec swappedSplices ∧
    (∀ c ∈ s.calls, c.pc = .done []) ∧ ¬ s.tree.InShape ∧ (10, 10) ∈ s.inserted ∧
    (s.tree.perform 10 (.remove 10 10)).map Prod.snd = some (.removed false) := by
  refine ⟨_, rfl, by decide +kernel, fun h => ?_, by decide +kernel, by decide +kernel⟩
  have hkeys := (h 0).1 _ (List.mem_singleton_self _)
  have hroot : (((new { nodeCapacity := 3 }).exec swappedSplices).tree.nodes
      ((new { nodeCapacity := 3 }).exec swappedSplices).tree.root).keys = [6, 2, 20] := by
    decide +kernel
  rw [hroot] at hkeys
  exact absurd hkeys (by decide)

/-- The same inserts with the first split spliced in before the leaf is split again. -/
def orderedSplices : List Action :=
  [(0, 10), (1, 20), (2, 30), (3, 40), (4, 5)].flatMap (fun p => wholeInsert p.1 p.2) ++
    [.invoke (.insert 6 6), .run 5, .run 5, .run 5] ++ wholeInsert 6 1 ++
    List.replicate 4 (.run 5) ++ wholeInsert 7 2

theorem orderedSplices_lose_nothing :
    ((new { nodeCapacity := 3 }).exec orderedSplices).tree.InShape ∧
    ∀ ops, ∃ n t rs, (∀ fuel, n ≤ fuel → ((new { nodeCapacity := 3 }).exec
      orderedSplices).tree.performAll fuel ops = some (t, rs)) ∧
      RunOk ((new { nodeCapacity := 3 }).exec orderedSplices).inserted ops t rs :=
  sequential_after { nodeCapacity := 3 } (by decide) orderedSplices (by decide +kernel)
    (by decide +kernel)

end System

end BTree

end Vdb
