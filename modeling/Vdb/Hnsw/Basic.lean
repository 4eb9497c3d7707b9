import Vdb.Types
import Mathlib.Data.List.Sort
import Mathlib.Logic.Function.Basic

/-!
# The HNSW graph

The node store of `HNSWIndex`, and `link`, which wires an allocated node into the graph.  A `link`
runs in sections, each under one node lock or under `entry_mutex_`; `HNSWIndex.runSection` is what
one section does to the index and where the call goes next (`Pc`).  Everything a section computes
after it has let go of its lock reads stored vectors only, and these never change, so it belongs to
the section before the next lock.  A search is run whole.

* A stored vector is a value of any type `ε`, and `dist` any function into a total preorder; the
  quantizer and the float kernels are not modelled.
* The level of a new node is an argument: the sampler may choose any.
* A `std::priority_queue` is the list of its elements, the top first.
* Sorting keeps the order of equal distances.
* Node ids are exact while there are fewer than `2 ^ 32` nodes, as the default of `max_elements`
  sees to.
-/

namespace Vdb

namespace Hnsw

structure HNSWConfig where
  M : ℕ := 16
  Mmax : ℕ := 16
  Mmax0 : ℕ := 32
  ef : ℕ := 200
  maxElements : ℕ := 2 ^ 20

structure Node (ε : Type*) where
  /-- Immutable once allocated. -/
  data : ε
  /-- One list for every layer from `0` to the level of the node; only the lists change. -/
  neighbours : List (List InternalId)

structure HNSWIndex (ε : Type*) where
  config : HNSWConfig
  nodes : InternalId → Node ε
  /-- Nodes allocated so far; `nodes i` is junk from `count` on. -/
  count : ℕ
  entryPoint : InternalId
  /-- `-1` for the empty graph. -/
  maxLayer : ℤ

/-- The heaps of `search_layer`. -/
structure SearchState (δ : Type*) where
  visited : List InternalId
  /-- Nodes to expand, the nearest on top. -/
  candidates : List (δ × InternalId)
  /-- Results, the farthest on top. -/
  W : List (δ × InternalId)
  deriving DecidableEq

/-- Where a `link` stands between two of its sections.  `L` is its snapshot of `max_layer_`, `lc`
the layer it works on, and `ep` the entry of its search there. -/
inductive Pc (δ : Type*) where
  /-- About to read the entry point. -/
  | start
  /-- In `search_layer`, about to copy the list of `cur`. -/
  | search (L lc : ℕ) (ep cur : InternalId) (st : SearchState δ)
  /-- About to set the node's own list on layer `lc`. -/
  | assign (L lc : ℕ) (ep : InternalId) (W neighbours : List InternalId)
  /-- About to add the back-link on `e`, then on the nodes `rest`. -/
  | backLink (L lc : ℕ) (ep : InternalId) (W : List InternalId) (e : InternalId)
      (rest : List InternalId)
  /-- About to become the entry point, if still taller than the graph. -/
  | promote
  | done
  deriving DecidableEq

namespace HNSWIndex

variable {ε δ : Type*} [Distance δ] (dist : ε → ε → δ) (x : HNSWIndex ε)

/-- The empty index. -/
def new [Inhabited ε] (config : HNSWConfig) : HNSWIndex ε :=
  { config, nodes := fun _ => ⟨default, []⟩, count := 0, entryPoint := 0, maxLayer := -1 }

/-- `neighbours[lc]` of a node, empty above its level. -/
def links (i : InternalId) (lc : ℕ) : List InternalId := (x.nodes i).neighbours.getD lc []

/-- The level of a node. -/
def level (i : InternalId) : ℕ := (x.nodes i).neighbours.length - 1

/-- Store `l` as the list of node `i` on layer `lc`. -/
def setLinks (i : InternalId) (lc : ℕ) (l : List InternalId) : HNSWIndex ε :=
  { x with nodes := Function.update x.nodes i { x.nodes i with
      neighbours := (x.nodes i).neighbours.set lc l } }

/-- `allocate_node_` with the level `l`; `none` when `max_elements` is exceeded. -/
def allocate (vec : ε) (l : ℕ) : Option (HNSWIndex ε) :=
  if x.config.maxElements ≤ x.count then none
  else some { x with
    nodes := Function.update x.nodes x.count ⟨vec, List.replicate (l + 1) []⟩
    count := x.count + 1 }

/-- The distance of a stored vector to `q`. -/
def distTo (q : ε) (i : InternalId) : δ := dist q (x.nodes i).data

/-- `operator<` of `std::pair<float, InternalId>`. -/
def pairLt (a b : δ × InternalId) : Bool :=
  decide (a.1 < b.1) || (!decide (b.1 < a.1) && decide (a.2 < b.2))

/-- Push `a` on a heap in which an element is above those it is `before`. -/
def push (before : δ × InternalId → δ × InternalId → Bool) (a : δ × InternalId) :
    List (δ × InternalId) → List (δ × InternalId)
  | [] => [a]
  | b :: h => if before a b then a :: b :: h else b :: push before a h

/-- `closest_`, or `ep` when there are no candidates. -/
def closest (q : ε) (ep : InternalId) : List InternalId → InternalId
  | [] => ep
  | c :: cands => cands.foldl
      (fun best i => if x.distTo dist q i < x.distTo dist q best then i else best) c

/-- One round of the loop over a copied list in `search_layer`. -/
def visit (q : ε) (ef : ℕ) (st : SearchState δ) (id : InternalId) : SearchState δ :=
  if id ∈ st.visited then st
  else
    let d := x.distTo dist q id
    let st := { st with visited := id :: st.visited }
    if st.W.length < ef ∨ ∃ w ∈ st.W.head?, d < w.1 then
      let W := push (fun a b => pairLt b a) (d, id) st.W
      { st with
        candidates := push pairLt (d, id) st.candidates
        W := if ef < W.length then W.tail else W }
    else st

/-- The next node to expand, or `none` at the end of `search_layer`. -/
def nextCandidate (st : SearchState δ) : Option (InternalId × SearchState δ) :=
  match st.candidates with
  | [] => none
  | (dc, c) :: rest =>
    if ∃ w ∈ st.W.head?, w.1 < dc then none else some (c, { st with candidates := rest })

/-- What `search_layer` returns. -/
def results (st : SearchState δ) : List InternalId := st.W.map Prod.snd

/-- One round of the loop of `select_neighbors` over the sorted candidates. -/
def selectRound (q : ε) (M : ℕ) (s : List InternalId × List InternalId) (e : InternalId) :
    List InternalId × List InternalId :=
  if M ≤ s.1.length then s
  else if ∃ r ∈ s.1, dist (x.nodes e).data (x.nodes r).data < x.distTo dist q e then
    (s.1, s.2 ++ [e])
  else (s.1 ++ [e], s.2)

/-- `select_neighbors`. -/
def selectNeighbors (q : ε) (cands : List InternalId) (M : ℕ) : List InternalId :=
  if cands.length ≤ M then cands
  else
    let sorted := cands.insertionSort fun a b => x.distTo dist q a ≤ x.distTo dist q b
    let (result, discarded) := sorted.foldl (selectRound dist x q M) ([], [])
    result ++ discarded.take (M - result.length)

/-- The most neighbours a node keeps on layer `lc`. -/
def mMax (lc : ℕ) : ℕ := if lc = 0 then x.config.Mmax0 else x.config.Mmax

/-- The vector of the node being linked. -/
def vec (id : InternalId) : ε := (x.nodes id).data

/-- Begin `search_layer` on layer `lc`: the entry is the first candidate, and as near as any
result. -/
def enterLayer (id : InternalId) (L lc : ℕ) (ep : InternalId) : Pc δ :=
  .search L lc ep ep { visited := [ep], candidates := [], W := [(x.distTo dist (x.vec id) ep, ep)] }

/-- Done with layer `lc`: go on below it from `ep`. -/
def leaveLayer (id : InternalId) (L lc : ℕ) (ep : InternalId) : Pc δ :=
  match lc with
  | 0 => if L < x.level id then .promote else .done
  | lc + 1 => x.enterLayer dist id L lc ep

/-- The back-links still to be added on layer `lc`. -/
def linkBack (id : InternalId) (L lc : ℕ) (ep : InternalId) (W : List InternalId) :
    List InternalId → Pc δ
  | [] => x.leaveLayer dist id L lc (x.closest dist (x.vec id) ep W)
  | e :: rest => .backLink L lc ep W e rest

/-- `search_layer` has returned `W`: above the level of the node it only moves the entry. -/
def leaveSearch (id : InternalId) (L lc : ℕ) (ep : InternalId) (W : List InternalId) : Pc δ :=
  if x.level id < lc then x.leaveLayer dist id L lc (x.closest dist (x.vec id) ep W)
  else .assign L lc ep W (x.selectNeighbors dist (x.vec id) W x.config.M)

/-- The section of `search_layer` that copies the list of `cur`, and the loops up to the next. -/
def searchSection (id : InternalId) (L lc : ℕ) (ep cur : InternalId) (st : SearchState δ) : Pc δ :=
  let ef := if x.level id < lc then 1 else x.config.ef
  let st := (x.links cur lc).foldl (x.visit dist (x.vec id) ef) st
  match nextCandidate st with
  | none => x.leaveSearch dist id L lc ep (results st)
  | some (c, st) => .search L lc ep c st

/-- The list of `e` with the back-link to `id`, pruned if it overflows. -/
def withBackLink (id : InternalId) (lc : ℕ) (e : InternalId) : List InternalId :=
  let eConn := x.links e lc ++ [id]
  if x.mMax lc < eConn.length then x.selectNeighbors dist (x.vec e) eConn (x.mMax lc) else eConn

/-- One section of `link(id)`. -/
def runSection (id : InternalId) : Pc δ → HNSWIndex ε × Pc δ
  | .start =>
    if x.maxLayer < 0 then ({ x with entryPoint := id, maxLayer := x.level id }, .done)
    else (x, x.enterLayer dist id x.maxLayer.toNat x.maxLayer.toNat x.entryPoint)
  | .search L lc ep cur st => (x, x.searchSection dist id L lc ep cur st)
  | .assign L lc ep W neighbours =>
    (x.setLinks id lc neighbours, x.linkBack dist id L lc ep W neighbours)
  | .backLink L lc ep W e rest =>
    (x.setLinks e lc (x.withBackLink dist id lc e), x.linkBack dist id L lc ep W rest)
  | .promote =>
    if x.maxLayer < x.level id then ({ x with entryPoint := id, maxLayer := x.level id }, .done)
    else (x, .done)
  | .done => (x, .done)

/-! ### Searching -/

/-- The loop of `search_layer` from the next candidate on, for at most so many rounds. -/
def searchLoop (q : ε) (ef lc : ℕ) : ℕ → SearchState δ → SearchState δ
  | 0, st => st
  | n + 1, st =>
    match nextCandidate st with
    | none => st
    | some (c, st) => searchLoop q ef lc n ((x.links c lc).foldl (x.visit dist q ef) st)

/-- The heaps before the loop. -/
def searchStart (q : ε) (ep : InternalId) : SearchState δ :=
  { visited := [ep], candidates := [(x.distTo dist q ep, ep)], W := [(x.distTo dist q ep, ep)] }

/-- The heaps after the loop. -/
def searchEnd (q : ε) (ep : InternalId) (ef lc : ℕ) : SearchState δ :=
  x.searchLoop dist q ef lc (x.count + 1) (x.searchStart dist q ep)

/-- `search_layer`. -/
def searchLayer (q : ε) (ep : InternalId) (ef lc : ℕ) : List InternalId :=
  results (x.searchEnd dist q ep ef lc)

/-- The greedy descent of `search` to layer `0`. -/
def descend (q : ε) : ℕ → InternalId → InternalId
  | 0, ep => ep
  | lc + 1, ep => descend q lc (x.closest dist q ep (x.searchLayer dist q ep 1 (lc + 1)))

def search (efSearch : ℕ) (query : ε) (K : ℕ) : List (InternalId × δ) :=
  if x.maxLayer < 0 then []
  else
    let ep := x.descend dist query x.maxLayer.toNat x.entryPoint
    let W := x.searchLayer dist query ep (max efSearch K) 0
    ((W.map fun id => (id, x.distTo dist query id)).insertionSort fun a b => a.2 ≤ b.2).take K

end HNSWIndex

end Hnsw

end Vdb
