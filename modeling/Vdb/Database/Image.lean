import Vdb.Database.Numbering
import Vdb.Metadata.Serialize

/-!
# Reading an index back

`deserialize` of an index of the same kind reads from the bytes of `serialize` the same index, but
for how many levels an HNSW index has drawn (`Index.Sound.reads`).
-/

namespace Vdb

namespace Database

open Metadata Reader

/-- A vector of 64-bit length is read back. -/
theorem reads_vec {v : Vec} (h : v.length < 2 ^ 64) : getVec.Reads (putVec v) v := by
  have hmany : (many (getNumber 4) v.length).Reads (v.flatMap fun x => putNat 4 x.toNat)
      (v.map UInt32.toNat) :=
    reads_many fun x _ => reads_nat truncated (by simpa using x.toNat_lt)
  have hback : (v.map UInt32.toNat).map UInt32.ofNat = v := by
    rw [List.map_map]
    exact (List.map_congr_left fun x _ => UInt32.ofNat_toNat).trans (List.map_id _)
  have hread := (Column.reads_number h).bind (f := fun n => do
    let xs ← many (getNumber 4) n
    pure (xs.map UInt32.ofNat)) (hmany.bind_pure fun xs => xs.map UInt32.ofNat)
  rwa [hback] at hread

theorem reads_vecs {l : List Vec} (h : ∀ v ∈ l, v.length < 2 ^ 64) :
    (many getVec l.length).Reads (l.flatMap putVec) l := by
  have hread : (many getVec l.length).Reads (l.flatMap putVec) (l.map id) :=
    reads_many fun v hv => reads_vec (h v hv)
  rwa [List.map_id] at hread

/-- A list of 64-bit length of 32-bit ids. -/
def IdsFit (l : List InternalId) : Prop := l.length < 2 ^ 64 ∧ ∀ i ∈ l, i < 2 ^ 32

instance (l : List InternalId) : Decidable (IdsFit l) :=
  inferInstanceAs (Decidable (l.length < 2 ^ 64 ∧ ∀ i ∈ l, i < 2 ^ 32))

theorem reads_ids {l : List InternalId} (h : IdsFit l) : getIds.Reads (putIds l) l := by
  have hmany : (many (getNumber 4) l.length).Reads (l.flatMap (putNat 4)) (l.map id) :=
    reads_many fun i hi => reads_nat truncated (by simpa using h.2 i hi)
  rw [List.map_id] at hmany
  exact (Column.reads_number h.1).bind hmany

theorem reads_idLists {l : List (List InternalId)} (h : ∀ ids ∈ l, IdsFit ids) :
    (many getIds l.length).Reads (l.flatMap putIds) l := by
  have hread : (many getIds l.length).Reads (l.flatMap putIds) (l.map id) :=
    reads_many fun ids hids => reads_ids (h ids hids)
  rwa [List.map_id] at hread

/-! ### The three kinds -/

/-- The sizes of a Brute index are 64-bit numbers. -/
structure BruteIndex.SizesFit (x : BruteIndex) : Prop where
  dim : x.dim < 2 ^ 64
  data : x.data.length < 2 ^ 64
  vectors : ∀ v ∈ x.data, v.length < 2 ^ 64

instance (x : BruteIndex) : Decidable x.SizesFit :=
  decidable_of_iff (x.dim < 2 ^ 64 ∧ x.data.length < 2 ^ 64 ∧ ∀ v ∈ x.data, v.length < 2 ^ 64)
    ⟨fun h => ⟨h.1, h.2.1, h.2.2⟩, fun h => ⟨h.dim, h.data, h.vectors⟩⟩

theorem BruteIndex.reads {x : BruteIndex} (h : x.SizesFit) : deserialize.Reads x.serialize x := by
  unfold BruteIndex.deserialize BruteIndex.serialize
  exact (Column.reads_number h.dim).bind ((Column.reads_number h.data).bind
    ((reads_vecs h.vectors).bind_pure fun data => (⟨x.dim, data⟩ : BruteIndex)))

/-- The sizes of an IVF index are 64-bit numbers. -/
structure IVFIndex.SizesFit (x : IVFIndex) : Prop where
  nlist : x.nlist < 2 ^ 64
  nprobe : x.nprobe < 2 ^ 64
  centroids : x.centroids.length < 2 ^ 64 ∧ ∀ v ∈ x.centroids, v.length < 2 ^ 64
  invertedLists : x.invertedLists.length < 2 ^ 64 ∧ ∀ ids ∈ x.invertedLists, IdsFit ids
  vectors : x.vectors.length < 2 ^ 64 ∧ ∀ v ∈ x.vectors, v.length < 2 ^ 64

instance (x : IVFIndex) : Decidable x.SizesFit :=
  decidable_of_iff (x.nlist < 2 ^ 64 ∧ x.nprobe < 2 ^ 64 ∧
      (x.centroids.length < 2 ^ 64 ∧ ∀ v ∈ x.centroids, v.length < 2 ^ 64) ∧
      (x.invertedLists.length < 2 ^ 64 ∧ ∀ ids ∈ x.invertedLists, IdsFit ids) ∧
      x.vectors.length < 2 ^ 64 ∧ ∀ v ∈ x.vectors, v.length < 2 ^ 64)
    ⟨fun h => ⟨h.1, h.2.1, h.2.2.1, h.2.2.2.1, h.2.2.2.2⟩,
      fun h => ⟨h.nlist, h.nprobe, h.centroids, h.invertedLists, h.vectors⟩⟩

theorem IVFIndex.reads {x : IVFIndex} (h : x.SizesFit) : deserialize.Reads x.serialize x := by
  have htrained : (getNumber 1).Reads [if x.trained then 1 else 0] x.trained.toNat := by
    have hr := reads_nat truncated (w := 1) (n := x.trained.toNat) (by cases x.trained <;> simp)
    rwa [show putNat 1 x.trained.toNat = [if x.trained then (1 : UInt8) else 0] by
      cases x.trained <;> rfl] at hr
  have hback : decide (x.trained.toNat ≠ 0) = x.trained := by cases x.trained <;> rfl
  have hend := (reads_vecs h.vectors.2).bind_pure fun vectors => ({
    trained := x.trained.toNat ≠ 0, nlist := x.nlist, nprobe := x.nprobe
    centroids := x.centroids, invertedLists := x.invertedLists, vectors } : IVFIndex)
  rw [hback] at hend
  unfold IVFIndex.deserialize IVFIndex.serialize
  refine htrained.bind ((Column.reads_number h.nlist).bind ((Column.reads_number h.nprobe).bind
    ((Column.reads_number h.centroids.1).bind ((reads_vecs h.centroids.2).bind
    ((Column.reads_number h.invertedLists.1).bind ((reads_idLists h.invertedLists.2).bind
    ((Column.reads_number h.vectors.1).bind ?_)))))))
  rw [hback]
  exact hend

namespace HNSWState

variable {x : HNSWState}

/-- The lengths of the stored vectors and lists are 64-bit numbers. -/
def SizesFit (x : HNSWState) : Prop :=
  ∀ n ∈ x.nodeList, n.data.length < 2 ^ 64 ∧ ∀ ids ∈ n.neighbours, ids.length < 2 ^ 64

instance (x : HNSWState) : Decidable x.SizesFit :=
  inferInstanceAs (Decidable (∀ n ∈ x.nodeList, n.data.length < 2 ^ 64 ∧
    ∀ ids ∈ n.neighbours, ids.length < 2 ^ 64))

theorem reads_node {n : Hnsw.Node Vec} (hdata : n.data.length < 2 ^ 64)
    (hlayers : n.neighbours.length < 2 ^ 64) (hids : ∀ ids ∈ n.neighbours, IdsFit ids) :
    getNode.Reads (putNode n) n := by
  unfold getNode putNode
  exact (reads_vec hdata).bind ((Column.reads_number hlayers).bind
    ((reads_idLists hids).bind_pure fun neighbours => (⟨n.data, neighbours⟩ : Hnsw.Node Vec)))

theorem toInt32_bits {n : ℤ} (h : -1 ≤ n ∧ n < 2 ^ 31) : toInt32 (n % 2 ^ 32).toNat = n := by
  unfold toInt32
  split_ifs <;> omega

theorem nodeList_getD (h : ∀ i, x.graph.count ≤ i → x.graph.nodes i = ⟨[], []⟩) (i : ℕ) :
    x.nodeList.getD i ⟨[], []⟩ = x.graph.nodes i := by
  unfold nodeList
  by_cases hi : i < x.graph.count
  · rw [List.getD_eq_getElem _ _ (by simpa using hi), List.getElem_map, List.getElem_range]
  · rw [List.getD_eq_default _ _ (by simpa using hi), h i (not_lt.1 hi)]

/-- The neighbours of a stored node are ids of 32 bits. -/
theorem Sound.ids (h : x.Sound) {n : Hnsw.Node Vec} (hn : n ∈ x.nodeList) {ids : List InternalId}
    (hids : ids ∈ n.neighbours) : ∀ j ∈ ids, j < 2 ^ 32 := by
  intro j hj
  obtain ⟨i, hi, rfl⟩ := List.mem_map.1 hn
  obtain ⟨lc, hlc⟩ := List.getElem?_of_mem hids
  have hlink : j ∈ x.graph.links i lc := by
    unfold Hnsw.HNSWIndex.links
    rw [List.getD_eq_getElem?_getD, hlc]
    exact hj
  have hcount := (h.graph.links i lc j hlink).1
  exact hcount.trans_le (h.room.trans (by decide))

theorem Sound.reads (h : x.Sound) (hs : x.SizesFit) :
    new.deserialize.Reads x.serialize { x with draws := 0 } := by
  have hnodes : (many getNode x.graph.count).Reads (x.nodeList.flatMap putNode) x.nodeList := by
    have hlen : x.nodeList.length = x.graph.count := by simp [nodeList]
    have hread : (many getNode x.nodeList.length).Reads (x.nodeList.flatMap putNode)
        (x.nodeList.map id) := reads_many fun n hn => by
      obtain ⟨i, hi, rfl⟩ := List.mem_map.1 hn
      have hlevels := h.levels i
      exact reads_node (hs _ hn).1 (by omega) fun ids hids => ⟨(hs _ hn).2 ids hids, h.ids hn hids⟩
    rwa [List.map_id, hlen] at hread
  have hroom : ¬ new.graph.config.maxElements < x.graph.count := not_lt.2 h.room
  have hgraph : ({ new.graph with
      entryPoint := x.graph.entryPoint, maxLayer := toInt32 (x.graph.maxLayer % 2 ^ 32).toNat
      count := x.graph.count, nodes := fun i => x.nodeList.getD i ⟨[], []⟩ } :
      Hnsw.HNSWIndex Vec) = x.graph := by
    rw [toInt32_bits h.maxLayer, funext (nodeList_getD h.junk)]
    dsimp only
    rw [show new.graph.config = x.graph.config from h.config.symm]
  have hend := hnodes.bind_pure fun nodes => ({ new with
    efSearch := x.efSearch
    graph := { new.graph with
      entryPoint := x.graph.entryPoint, maxLayer := toInt32 (x.graph.maxLayer % 2 ^ 32).toNat
      count := x.graph.count, nodes := fun i => nodes.getD i ⟨[], []⟩ } } : HNSWState)
  rw [hgraph] at hend
  have hentry : x.graph.entryPoint < 256 ^ 4 := h.entryPoint.trans_lt (by decide)
  have hlayer : (x.graph.maxLayer % 2 ^ 32).toNat < 256 ^ 4 := by omega
  have hef : x.efSearch < 2 ^ 64 := h.efSearch ▸ by decide
  have hcount : x.graph.count < 2 ^ 64 := h.room.trans_lt (by decide)
  unfold HNSWState.deserialize HNSWState.serialize
  refine (reads_nat truncated hentry).bind ((reads_nat truncated hlayer).bind
    ((Column.reads_number hef).bind ((Column.reads_number hcount).bind ?_)))
  rw [if_neg hroom]
  exact hend

end HNSWState

namespace Index

variable {δ : Type} [Distance δ] {x x' : Index}

/-- The sizes of the index are 64-bit numbers. -/
def SizesFit : Index → Prop
  | .brute x => x.SizesFit
  | .ivf x => x.SizesFit
  | .hnsw x => x.SizesFit

instance : DecidablePred SizesFit
  | .brute x => inferInstanceAs (Decidable x.SizesFit)
  | .ivf x => inferInstanceAs (Decidable x.SizesFit)
  | .hnsw x => inferInstanceAs (Decidable x.SizesFit)

/-- The index without the state of its level generator. -/
def undrawn : Index → Index
  | .hnsw x => .hnsw { x with draws := 0 }
  | x => x

/-- **An index is read back** into a fresh one of its kind. -/
theorem Sound.reads (h : x.Sound) (hs : x.SizesFit) {config : VDBConfig}
    (hkind : x.kind = config.kind) : (make config).deserialize.Reads x.serialize x.undrawn := by
  unfold make
  rw [← hkind]
  cases x with
  | brute x => exact (BruteIndex.reads hs).map Index.brute
  | ivf x => exact (IVFIndex.reads hs).map Index.ivf
  | hnsw x => exact (HNSWState.Sound.reads h hs).map Index.hnsw

theorem undrawn_undrawn (x : Index) : x.undrawn.undrawn = x.undrawn := by
  cases x <;> rfl

theorem size_undrawn (x : Index) : x.undrawn.size = x.size := by
  cases x <;> rfl

theorem kind_undrawn (x : Index) : x.undrawn.kind = x.kind := by
  cases x <;> rfl

theorem Sound.undrawn (h : x.Sound) : x.undrawn.Sound := by
  cases x with
  | hnsw x =>
    exact ⟨h.graph, h.config, h.room, h.junk, h.levels, h.maxLayer, h.entryPoint, h.efSearch⟩
  | _ => exact h

/-- No answer depends on the levels still to be drawn. -/
theorem search_undrawn (K : Kernels δ) (metric : Metric) (query : Vec) (k : ℕ) :
    x.undrawn.search K metric query k = x.search K metric query k := by
  cases x <;> rfl

end Index

end Database

end Vdb
