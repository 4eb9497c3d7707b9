import Vdb.Metadata.Store
import Vdb.Hnsw.Basic

/-!
# The vector indexes

The three kinds of `Index` a database can sit on: `BruteIndex`, `IVFIndex` and the graph of
`HNSWIndex`, with what they do when a vector is added, searched for, saved and loaded.

* A vector is the list of the bit patterns of its floats.  What is computed with floats, the
  distances and the centroids of k-means, is a parameter (`Kernels`), and so are the levels an
  HNSW index draws.
* Sorting, also by `nth_element` and `partial_sort`, keeps the order of equal distances, which the
  library leaves open.
-/

namespace Vdb

namespace Database

open Metadata

/-- The bit patterns of the floats of a vector. -/
abbrev Vec := List UInt32

inductive Metric where
  | l2
  | innerProduct
  | cosine
  deriving DecidableEq

def Metric.toByte : Metric → ℕ
  | .l2 => 0
  | .innerProduct => 1
  | .cosine => 2

inductive IndexKind where
  | brute
  | ivf
  | hnsw
  deriving DecidableEq

/-- What is computed with floats and random numbers. -/
structure Kernels (δ : Type) where
  dist : Metric → Vec → Vec → δ
  /-- The largest float. -/
  maxDist : δ
  /-- The centroids k-means finds for so many lists. -/
  centroids : Metric → ℕ → List Vec → List Vec
  /-- The levels an HNSW index draws, one after the other: numbers of type `int`. -/
  level : ℕ → ℕ
  level_lt : ∀ n, level n < 2 ^ 31

structure VDBConfig where
  kind : IndexKind := .hnsw
  dim : ℕ := 0
  metric : Metric := .l2
  schema : List AttrSpec := []

/-- `put_floats`. -/
def putVec (v : Vec) : Bytes := putNat 8 v.length ++ v.flatMap fun x => putNat 4 x.toNat

/-- `get_floats`. -/
def getVec : Reader Exn Vec := do
  let n ← getNumber 8
  let xs ← Reader.many (getNumber 4) n
  pure (xs.map UInt32.ofNat)

/-- A list of node ids with its length. -/
def putIds (l : List InternalId) : Bytes := putNat 8 l.length ++ l.flatMap (putNat 4)

def getIds : Reader Exn (List InternalId) := do
  let n ← getNumber 8
  Reader.many (getNumber 4) n

/-- An `int32_t` from its bits. -/
def toInt32 (n : ℕ) : ℤ := if n < 2 ^ 31 then n else n - 2 ^ 32

structure BruteIndex where
  dim : ℕ
  data : List Vec := []
  deriving DecidableEq

structure IVFIndex where
  nlist : ℕ := 100
  nprobe : ℕ := 8
  trained : Bool := false
  centroids : List Vec := []
  invertedLists : List (List InternalId) := []
  vectors : List Vec := []
  deriving DecidableEq

/-- An HNSW graph, its `ef_search_`, and how many levels have been drawn. -/
structure HNSWState where
  graph : Hnsw.HNSWIndex Vec
  efSearch : ℕ := 50
  draws : ℕ := 0

variable {δ : Type} [Distance δ] (dist : Vec → Vec → δ)

namespace BruteIndex

variable (x : BruteIndex)

def add (vec : Vec) : BruteIndex × InternalId :=
  let x := { x with data := x.data ++ [vec] }
  (x, (x.data.length - 1) % 2 ^ 32)

def search (query : Vec) (K : ℕ) : List (InternalId × δ) :=
  let all := x.data.mapIdx fun i v => (i, dist query v)
  (all.insertionSort fun a b => a.2 ≤ b.2).take K

def serialize : Bytes :=
  putNat 8 x.dim ++ (putNat 8 x.data.length ++ x.data.flatMap putVec)

def deserialize : Reader Exn BruteIndex := do
  let dim ← getNumber 8
  let n ← getNumber 8
  let data ← Reader.many getVec n
  pure { dim, data }

end BruteIndex

namespace IVFIndex

variable (x : IVFIndex)

/-- `nearest_centroid`, an `int`; `-1` if no centroid is nearer than `maxDist`. -/
def nearestCentroid (maxDist : δ) (v : Vec) : ℤ :=
  (x.centroids.zipIdx.foldl (fun (best : ℤ × δ) c =>
    if dist v c.1 < best.2 then (toInt32 (c.2 % 2 ^ 32), dist v c.1) else best) (-1, maxDist)).1

/-- Put `id` on the list of the nearest centroid.  There always is one in a trained index, and with
at most `2 ^ 31` lists it is not negative; what a negative index writes to is left alone. -/
def assign (maxDist : δ) (id : InternalId) (v : Vec) : IVFIndex :=
  let c := x.nearestCentroid dist maxDist v
  if c < 0 then x
  else { x with invertedLists := x.invertedLists.modify c.toNat fun l => l ++ [id] }

def train (maxDist : δ) (centroids : ℕ → List Vec → List Vec) (data : List Vec) : IVFIndex :=
  let nlist := min x.nlist data.length
  let x := { x with
    nlist, centroids := centroids nlist data, invertedLists := List.replicate nlist []
    vectors := data, trained := true }
  data.zipIdx.foldl (fun x v => x.assign dist maxDist (v.2 % 2 ^ 32) v.1) x

def add (maxDist : δ) (vec : Vec) : Outcome IVFIndex InternalId :=
  if ¬ x.trained then .error .assertionFailed x
  else
    let id := x.vectors.length % 2 ^ 32
    let x := x.assign dist maxDist id vec
    .ok id { x with vectors := x.vectors ++ [vec] }

/-- One round of the scan of the lists: a heap of `K`, the farthest on top. -/
def keepNearest (K : ℕ) (heap : List (δ × InternalId)) (e : δ × InternalId) :
    List (δ × InternalId) :=
  let farther := fun a b => Hnsw.HNSWIndex.pairLt b a
  if heap.length < K then Hnsw.HNSWIndex.push farther e heap
  else
    match heap with
    | [] => []
    | top :: rest => if e.1 < top.1 then Hnsw.HNSWIndex.push farther e rest else heap

def search (query : Vec) (K : ℕ) : Except Exn (List (InternalId × δ)) :=
  if ¬ x.trained then .error .assertionFailed
  else if K = 0 then .ok []
  else
    let cd := x.centroids.mapIdx fun c v => (dist query v, c)
    let nearest := (cd.insertionSort fun a b => !Hnsw.HNSWIndex.pairLt b a).take x.nprobe
    let ids := nearest.flatMap fun c => x.invertedLists.getD c.2 []
    let heap := (ids.map fun id => (dist query (x.vectors.getD id []), id)).foldl
      (keepNearest K) []
    .ok (heap.reverse.map fun e => (e.2, e.1))

def serialize : Bytes :=
  [if x.trained then 1 else 0] ++ (putNat 8 x.nlist ++ (putNat 8 x.nprobe ++
    (putNat 8 x.centroids.length ++ (x.centroids.flatMap putVec ++
    (putNat 8 x.invertedLists.length ++ (x.invertedLists.flatMap putIds ++
    (putNat 8 x.vectors.length ++ x.vectors.flatMap putVec)))))))

def deserialize : Reader Exn IVFIndex := do
  let trained ← getNumber 1
  let nlist ← getNumber 8
  let nprobe ← getNumber 8
  let nc ← getNumber 8
  let centroids ← Reader.many getVec nc
  let nl ← getNumber 8
  let invertedLists ← Reader.many getIds nl
  let nv ← getNumber 8
  let vectors ← Reader.many getVec nv
  pure { trained := trained ≠ 0, nlist, nprobe, centroids, invertedLists, vectors }

end IVFIndex

namespace HNSWState

open Hnsw (HNSWIndex Pc)

variable (x : HNSWState)

def new : HNSWState := { graph := .new {} }

def allocate (level : ℕ → ℕ) (vec : Vec) : Outcome HNSWState InternalId :=
  match x.graph.allocate vec (level x.draws) with
  | none => .error (.lengthError (ascii "HNSWIndex: max_elements exceeded")) x
  | some graph => .ok (x.graph.count % 2 ^ 32) { x with graph, draws := x.draws + 1 }

/-- One section of `link(id)`. -/
def linkSection (id : InternalId) (pc : Pc δ) : HNSWState × Pc δ :=
  let (graph, pc) := x.graph.runSection dist id pc
  ({ x with graph }, pc)

/-- As many sections as a `link` alone in the graph can run: on every layer one for each node, one
to set its own list and one for each back-link. -/
def linkSections : ℕ := (x.graph.maxLayer.toNat + 1) * (2 * x.graph.count + 3) + 3

/-- `link`, with no other call running. -/
def link (id : InternalId) : HNSWState :=
  ((fun s : HNSWState × Pc δ => s.1.linkSection dist id s.2)^[x.linkSections] (x, .start)).1

def search (query : Vec) (K : ℕ) : List (InternalId × δ) := x.graph.search dist x.efSearch query K

/-- The stored nodes. -/
def nodeList : List (Hnsw.Node Vec) := (List.range x.graph.count).map x.graph.nodes

def putNode (n : Hnsw.Node Vec) : Bytes :=
  putVec n.data ++ (putNat 8 n.neighbours.length ++ n.neighbours.flatMap putIds)

def getNode : Reader Exn (Hnsw.Node Vec) := do
  let data ← getVec
  let nl ← getNumber 8
  let neighbours ← Reader.many getIds nl
  pure { data, neighbours }

def serialize : Bytes :=
  putNat 4 x.graph.entryPoint ++ (putNat 4 (x.graph.maxLayer % 2 ^ 32).toNat ++
    (putNat 8 x.efSearch ++ (putNat 8 x.graph.count ++ x.nodeList.flatMap putNode)))

def deserialize : Reader Exn HNSWState := do
  let entryPoint ← getNumber 4
  let maxLayer ← getNumber 4
  let efSearch ← getNumber 8
  let n ← getNumber 8
  if x.graph.config.maxElements < n then
    throw (.lengthError (ascii "HNSWIndex::deserialize: node count exceeds max_elements"))
  let nodes ← Reader.many getNode n
  pure { x with
    efSearch
    graph := { x.graph with
      entryPoint, maxLayer := toInt32 maxLayer, count := n
      nodes := fun i => nodes.getD i ⟨[], []⟩ } }

end HNSWState

/-- The index of a database. -/
inductive Index where
  | brute (x : BruteIndex)
  | ivf (x : IVFIndex)
  | hnsw (x : HNSWState)

namespace Index

variable (K : Kernels δ) (metric : Metric)

/-- `make_index_`. -/
def make (config : VDBConfig) : Index :=
  match config.kind with
  | .brute => .brute { dim := config.dim }
  | .ivf => .ivf {}
  | .hnsw => .hnsw .new

def kind : Index → IndexKind
  | .brute _ => .brute
  | .ivf _ => .ivf
  | .hnsw _ => .hnsw

def size : Index → ℕ
  | .brute x => x.data.length
  | .ivf x => x.vectors.length
  | .hnsw x => x.graph.count

/-- `train`, which only an IVF index needs. -/
def train (data : List Vec) : Index → Index
  | .ivf x => .ivf (x.train (K.dist metric) K.maxDist (K.centroids metric) data)
  | x => x

/-- `allocate`: the whole of `add` for a Brute or an IVF index. -/
def allocate (vec : Vec) : Index → Outcome Index InternalId
  | .brute x =>
    let (x, id) := x.add vec
    .ok id (.brute x)
  | .ivf x => (x.add (K.dist metric) K.maxDist vec).mapState .ivf
  | .hnsw x => (x.allocate K.level vec).mapState .hnsw

/-- One section of `link(id)`; there are none unless the index is a graph. -/
def linkSection (id : InternalId) (pc : Hnsw.Pc δ) : Index → Index × Hnsw.Pc δ
  | .hnsw x =>
    let (x, pc) := x.linkSection (K.dist metric) id pc
    (.hnsw x, pc)
  | x => (x, .done)

/-- `link`, with no other call running. -/
def link (id : InternalId) : Index → Index
  | .hnsw x => .hnsw (x.link (K.dist metric) id)
  | x => x

def add (vec : Vec) (x : Index) : Outcome Index InternalId :=
  match x.allocate K metric vec with
  | .ok id x => .ok id (x.link K metric id)
  | .error e x => .error e x

def search (query : Vec) (k : ℕ) : Index → Except Exn (List (InternalId × δ))
  | .brute x => .ok (x.search (K.dist metric) query k)
  | .ivf x => x.search (K.dist metric) query k
  | .hnsw x => .ok (x.search (K.dist metric) query k)

def serialize : Index → Bytes
  | .brute x => x.serialize
  | .ivf x => x.serialize
  | .hnsw x => x.serialize

def deserialize : Index → Reader Exn Index
  | .brute _ => .brute <$> BruteIndex.deserialize
  | .ivf _ => .ivf <$> IVFIndex.deserialize
  | .hnsw x => .hnsw <$> x.deserialize

end Index

end Database

end Vdb
