import Vdb.Hnsw.Basic

/-!
# What `select_neighbors` keeps

Every candidate that is looked at is kept or discarded, and the discarded ones fill what room is
left: `length_selectNeighbors` and `exists_selectNeighbors_perm`.

* `Spread` : what the loop has kept and discarded so far, by the distances.
* `selectNeighbors_spread` : a nearest candidate is among the neighbours, and the kept ones are no
  closer to each other than to the base.
-/

namespace Vdb

namespace Hnsw

namespace HNSWIndex

variable {ε δ : Type*} [Distance δ] (dist : ε → ε → δ) (x : HNSWIndex ε) (q : ε) (M : ℕ)

/-- The loop over the sorted candidates: those it has not looked at come after the last place. -/
theorem exists_selectRound_perm (l : List InternalId) (s : List InternalId × List InternalId)
    (hs : s.1.length ≤ M) : ∃ rest : List InternalId,
      ((l.foldl (x.selectRound dist q M) s).1 ++ (l.foldl (x.selectRound dist q M) s).2 ++
        rest).Perm
        (s.1 ++ s.2 ++ l) ∧
      (l.foldl (x.selectRound dist q M) s).1.length ≤ M ∧
      (rest ≠ [] → (l.foldl (x.selectRound dist q M) s).1.length = M) := by
  induction l generalizing s with
  | nil => exact ⟨[], .refl _, hs, fun h => absurd rfl h⟩
  | cons e l ih =>
    rw [List.foldl_cons]
    by_cases hfull : M ≤ s.1.length
    · -- the result is full, and stays as it is
      have hround : x.selectRound dist q M s e = s := if_pos hfull
      rw [hround]
      obtain ⟨rest, hperm, hle, -⟩ := ih s hs
      refine ⟨e :: rest, ?_, hle, fun _ => ?_⟩
      · refine List.perm_middle.trans (((hperm.cons e).trans ?_))
        exact List.perm_middle.symm
      · have hkeep : ∀ l : List InternalId, l.foldl (x.selectRound dist q M) s = s := by
          intro l
          induction l with
          | nil => rfl
          | cons e l ih =>
            rw [List.foldl_cons, show x.selectRound dist q M s e = s from if_pos hfull, ih]
        rw [hkeep]
        exact le_antisymm hs hfull
    · have hround : ∃ s', x.selectRound dist q M s e = s' ∧ s'.1.length ≤ M ∧
          (s'.1 ++ s'.2).Perm (s.1 ++ s.2 ++ [e]) := by
        unfold selectRound
        rw [if_neg hfull]
        split_ifs
        · exact ⟨_, rfl, hs, by rw [List.append_assoc]⟩
        · refine ⟨_, rfl, ?_, ?_⟩
          · rw [List.length_append, List.length_singleton]
            omega
          · rw [List.append_assoc, List.append_assoc]
            exact List.perm_append_comm.append_left s.1
      obtain ⟨s', heq, hs', hperm'⟩ := hround
      rw [heq]
      obtain ⟨rest, hperm, hle, hfull'⟩ := ih s' hs'
      refine ⟨rest, hperm.trans ((hperm'.append_right l).trans ?_), hle, hfull'⟩
      rw [List.append_assoc, List.singleton_append]

/-- The neighbours are some of the candidates, each once. -/
theorem exists_selectNeighbors_perm (cands : List InternalId) : ∃ rest : List InternalId,
    (x.selectNeighbors dist q cands M ++ rest).Perm cands ∧
      (x.selectNeighbors dist q cands M).length = min M cands.length := by
  unfold selectNeighbors
  split_ifs with hfew
  · exact ⟨[], by rw [List.append_nil], (Nat.min_eq_right hfew).symm⟩
  · have hsort := List.perm_insertionSort
      (fun a b => x.distTo dist q a ≤ x.distTo dist q b) cands
    set sorted := cands.insertionSort fun a b => x.distTo dist q a ≤ x.distTo dist q b
    obtain ⟨rest, hperm, hle, hfull⟩ :=
      exists_selectRound_perm dist x q M sorted ([], []) (Nat.zero_le M)
    dsimp only
    generalize sorted.foldl (x.selectRound dist q M) ([], []) = s at hperm hle hfull ⊢
    obtain ⟨result, discarded⟩ := s
    dsimp only at hperm hle hfull ⊢
    have hsplit := List.take_append_drop (M - result.length) discarded
    refine ⟨discarded.drop (M - result.length) ++ rest, ?_, ?_⟩
    · rw [List.append_assoc, ← List.append_assoc _ _ rest, hsplit, ← List.append_assoc]
      exact hperm.trans hsort
    · have hlen := (hperm.trans hsort).length_eq
      simp only [List.length_append] at hlen
      rw [List.length_append, List.length_take]
      by_cases hrest : rest = []
      · rw [hrest, List.length_nil] at hlen
        omega
      · have := hfull hrest
        omega

variable {dist x q M} {cands : List InternalId}

theorem length_selectNeighbors :
    (x.selectNeighbors dist q cands M).length = min M cands.length :=
  (exists_selectNeighbors_perm dist x q M cands).choose_spec.2

theorem nodup_selectNeighbors (h : cands.Nodup) : (x.selectNeighbors dist q cands M).Nodup := by
  obtain ⟨rest, hperm, -⟩ := exists_selectNeighbors_perm dist x q M cands
  exact (List.nodup_append.1 (hperm.nodup_iff.2 h)).1

theorem subset_selectNeighbors : x.selectNeighbors dist q cands M ⊆ cands := by
  obtain ⟨rest, hperm, -⟩ := exists_selectNeighbors_perm dist x q M cands
  exact fun e he => hperm.subset (List.mem_append_left rest he)

/-! ### By distance -/

/-- The kept and the discarded candidates of the loop. -/
def selectLoop (dist : ε → ε → δ) (x : HNSWIndex ε) (q : ε) (M : ℕ) (cands : List InternalId) :
    List InternalId × List InternalId :=
  (cands.insertionSort fun a b => x.distTo dist q a ≤ x.distTo dist q b).foldl
    (x.selectRound dist q M) ([], [])

/-- A kept candidate is no closer to one kept before it than to `q`; a discarded one is closer to
one that is kept. -/
structure Spread (dist : ε → ε → δ) (x : HNSWIndex ε) (q : ε)
    (s : List InternalId × List InternalId) : Prop where
  kept : s.1.Pairwise fun r e => ¬ dist (x.nodes e).data (x.nodes r).data < x.distTo dist q e
  discarded : ∀ e ∈ s.2, ∃ r ∈ s.1, dist (x.nodes e).data (x.nodes r).data < x.distTo dist q e

variable {s : List InternalId × List InternalId}

theorem Spread.selectRound (h : Spread dist x q s) (e : InternalId) :
    Spread dist x q (x.selectRound dist q M s e) := by
  unfold HNSWIndex.selectRound
  split_ifs with hfull hcloser
  · exact h
  · refine ⟨h.kept, fun e' he' => ?_⟩
    rcases List.mem_append.1 he' with he' | he'
    · exact h.discarded e' he'
    · rw [List.mem_singleton.1 he']
      exact hcloser
  · refine ⟨List.pairwise_append.2 ⟨h.kept, List.pairwise_singleton _ _, fun r hr e' he' => ?_⟩,
      fun e' he' => ?_⟩
    · rw [List.mem_singleton.1 he']
      exact fun hlt => hcloser ⟨r, hr, hlt⟩
    · obtain ⟨r, hr, hlt⟩ := h.discarded e' he'
      exact ⟨r, List.mem_append_left [e] hr, hlt⟩

theorem Spread.foldl_selectRound (h : Spread dist x q s) (l : List InternalId) :
    Spread dist x q (l.foldl (x.selectRound dist q M) s) := by
  induction l generalizing s with
  | nil => exact h
  | cons e l ih => exact ih (h.selectRound e)

theorem spread_selectLoop : Spread dist x q (x.selectLoop dist q M cands) :=
  Spread.foldl_selectRound ⟨List.Pairwise.nil, fun _ h => absurd h List.not_mem_nil⟩ _

/-- What is kept stays kept. -/
theorem prefix_foldl_selectRound (l : List InternalId) (s : List InternalId × List InternalId) :
    s.1 <+: (l.foldl (x.selectRound dist q M) s).1 := by
  induction l generalizing s with
  | nil => exact List.prefix_rfl
  | cons e l ih =>
    refine List.IsPrefix.trans ?_ (ih (x.selectRound dist q M s e))
    unfold HNSWIndex.selectRound
    split_ifs
    · exact List.prefix_rfl
    · exact List.prefix_rfl
    · exact List.prefix_append s.1 [e]

/-- The candidates by distance. -/
theorem pairwise_sorted (dist : ε → ε → δ) (x : HNSWIndex ε) (q : ε) (cands : List InternalId) :
    (cands.insertionSort fun a b => x.distTo dist q a ≤ x.distTo dist q b).Pairwise
      fun a b => x.distTo dist q a ≤ x.distTo dist q b := by
  have : Std.Total fun a b => x.distTo dist q a ≤ x.distTo dist q b :=
    ⟨fun a b => Distance.le_total (x.distTo dist q a) (x.distTo dist q b)⟩
  have : IsTrans InternalId fun a b => x.distTo dist q a ≤ x.distTo dist q b :=
    ⟨fun _ _ _ => le_trans⟩
  exact List.pairwise_insertionSort _ cands

/-- The first of the sorted candidates is kept. -/
theorem exists_nearest_kept (dist : ε → ε → δ) (x : HNSWIndex ε) (q : ε) (hM : 1 ≤ M)
    (hne : cands ≠ []) :
    ∃ e ∈ (x.selectLoop dist q M cands).1, e ∈ cands ∧
      ∀ c ∈ cands, x.distTo dist q e ≤ x.distTo dist q c := by
  have hsorted := pairwise_sorted dist x q cands
  have hperm := List.perm_insertionSort (fun a b => x.distTo dist q a ≤ x.distTo dist q b) cands
  unfold selectLoop
  generalize cands.insertionSort (fun a b => x.distTo dist q a ≤ x.distTo dist q b) = sorted
    at hsorted hperm
  cases sorted with
  | nil => exact absurd hperm.nil_eq.symm hne
  | cons e l =>
    have hfirst : x.selectRound dist q M ([], []) e = ([e], []) := by
      rw [HNSWIndex.selectRound, if_neg (by rw [List.length_nil]; omega), if_neg (by simp)]
      rfl
    refine ⟨e, ?_, hperm.subset List.mem_cons_self, fun c hc => ?_⟩
    · rw [List.foldl_cons, hfirst]
      exact (prefix_foldl_selectRound l ([e], [])).subset List.mem_cons_self
    · rcases List.mem_cons.1 (hperm.symm.subset hc) with rfl | hc
      · exact le_rfl
      · exact (List.pairwise_cons.1 hsorted).1 c hc

theorem selectNeighbors_eq (h : M < cands.length) : x.selectNeighbors dist q cands M =
    (x.selectLoop dist q M cands).1 ++
      (x.selectLoop dist q M cands).2.take (M - (x.selectLoop dist q M cands).1.length) :=
  if_neg (Nat.not_le.2 h)

/-- **The neighbours**: as many of the candidates as there is room for, a nearest one among them.
If there are more, those that are not filled up from the discarded ones are no closer to one kept
before them than to the base. -/
theorem selectNeighbors_spread (dist : ε → ε → δ) (x : HNSWIndex ε) (q : ε) {M : ℕ}
    {cands : List InternalId} (hM : 1 ≤ M) (hnodup : cands.Nodup) :
    (x.selectNeighbors dist q cands M).length = min M cands.length ∧
    (x.selectNeighbors dist q cands M).Nodup ∧
    x.selectNeighbors dist q cands M ⊆ cands ∧
    (cands ≠ [] → ∃ e ∈ x.selectNeighbors dist q cands M,
      ∀ c ∈ cands, x.distTo dist q e ≤ x.distTo dist q c) ∧
    (M < cands.length → ∃ kept filled,
      x.selectNeighbors dist q cands M = kept ++ filled ∧
      kept = (x.selectLoop dist q M cands).1 ∧ filled <+: (x.selectLoop dist q M cands).2 ∧
      kept.Pairwise fun r e =>
        x.distTo dist q e ≤ dist (x.nodes e).data (x.nodes r).data) := by
  refine ⟨length_selectNeighbors, nodup_selectNeighbors hnodup, subset_selectNeighbors,
    fun hne => ?_,
    fun hmany => ⟨_, _, selectNeighbors_eq hmany, rfl, List.take_prefix _ _, ?_⟩⟩
  · obtain ⟨e, he, hmem, hle⟩ := exists_nearest_kept dist x q hM hne
    rcases Nat.lt_or_ge M cands.length with hmany | hfew
    · refine ⟨e, ?_, hle⟩
      rw [selectNeighbors_eq hmany]
      exact List.mem_append_left _ he
    · refine ⟨e, ?_, hle⟩
      rw [selectNeighbors, if_pos hfew]
      exact hmem
  · refine spread_selectLoop.kept.imp fun {r e} hlt => ?_
    rcases Distance.le_total (x.distTo dist q e) (dist (x.nodes e).data (x.nodes r).data) with h | h
    · exact h
    · by_contra hnot
      exact hlt (lt_of_le_not_ge h hnot)

/-- Four numbers on a line. -/
def fourOnALine : HNSWIndex ℤ :=
  { new (ε := ℤ) {} with nodes := fun i => ⟨[1, 2, -3, 9].getD i 0, []⟩ }

/-- Of the three nearest to `0` the number `2` is nearer to `1`, so it only comes in behind `-3`, in
the place that is left. -/
theorem selectNeighbors_spread_line :
    fourOnALine.selectNeighbors (fun a b => (a - b).natAbs) 0 [3, 1, 2, 0] 3 = [0, 2, 1] ∧
      ∃ kept filled, [0, 2, 1] = kept ++ filled ∧
        kept = (fourOnALine.selectLoop (fun a b => (a - b).natAbs) 0 3 [3, 1, 2, 0]).1 ∧
        kept.Pairwise fun r e => fourOnALine.distTo (fun a b => (a - b).natAbs) 0 e ≤
          ((fourOnALine.nodes e).data - (fourOnALine.nodes r).data).natAbs := by
  have hresult : fourOnALine.selectNeighbors (fun a b => (a - b).natAbs) 0 [3, 1, 2, 0] 3 =
      [0, 2, 1] := by decide
  obtain ⟨-, -, -, -, hmany⟩ := selectNeighbors_spread (fun a b => (a - b).natAbs) fourOnALine 0
    (M := 3) (by decide) (show ([3, 1, 2, 0] : List InternalId).Nodup by decide)
  obtain ⟨kept, filled, heq, hkept, -, hspread⟩ := hmany (by decide)
  exact ⟨hresult, kept, filled, hresult ▸ heq, hkept, hspread⟩

end HNSWIndex

end Hnsw

end Vdb
