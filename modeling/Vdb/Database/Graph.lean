import Vdb.Database.Numbering
import Vdb.Hnsw.Findable

/-!
# The graph of a database

A database whose index is an HNSW graph adds to it as `HNSWIndex.add` does, with the levels its
sampler draws.
-/

namespace Vdb

namespace Database

open Hnsw (HNSWIndex Pc SearchState)

variable {δ : Type} [Distance δ] (dist : Vec → Vec → δ) (x : HNSWState)

namespace HNSWState

theorem linkSections_iterate (id : InternalId) (n : ℕ) (pc : Pc δ) :
    (fun s : HNSWState × Pc δ => s.1.linkSection dist id s.2)^[n] (x, pc) =
      ({ x with graph := (HNSWIndex.runSections dist id n (x.graph, pc)).1 },
        (HNSWIndex.runSections dist id n (x.graph, pc)).2) := by
  induction n generalizing x pc with
  | zero => rfl
  | succ n ih => exact ih _ _

theorem link_graph (id : InternalId) : x.link dist id = { x with graph := x.graph.link dist id } :=
  congrArg Prod.fst (linkSections_iterate dist x id _ .start)

/-- In a connected graph every vector of the database is found. -/
theorem search_findable (h : x.graph.Findable dist) (query : Vec) {K : ℕ} (hK : x.graph.count ≤ K) :
    ((x.search dist query K).map Prod.fst).Perm (List.range x.graph.count) := by
  exact h x.efSearch query K hK

end HNSWState

/-- A search reports numbers of stored vectors. -/
theorem Index.Sound.search_lt {x : Index} (h : x.Sound) {K : Kernels δ} {metric : Metric}
    {query : Vec}
    {n : ℕ} {found : List (InternalId × δ)} (hs : x.search K metric query n = .ok found) :
    ∀ e ∈ found, e.1 < x.size := by
  intro e he
  cases x with
  | brute x =>
    cases hs
    have hsorted := (List.mem_insertionSort _).1 (List.mem_of_mem_take he)
    obtain ⟨i, hi, rfl⟩ := List.mem_mapIdx.1 hsorted
    exact hi
  | ivf x =>
    -- an index that is not trained is not searched
    obtain rfl : x = {} := h
    cases hs
  | hnsw x =>
    cases hs
    have hsound : x.Sound := h
    exact HNSWIndex.mem_search hsound.graph (hsound.efSearch.symm ▸ by decide) query n he

end Database

end Vdb
