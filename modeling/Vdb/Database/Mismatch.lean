import Vdb.Database.Truncated

/-!
# Snapshots of another configuration

What `load_snapshot` makes of a snapshot that was saved under another configuration.  The kind of
the index is not in the file, so the bytes of one kind are read in the format of another;
`Index.Image` says which bytes the format of a kind accepts.

* `System.mismatch_iff` : in every state that concurrent calls reach, whether they throw or not, a
  load throws unless the dimension, in the 32 bits it is written in, the metric and the schema are
  the same, the columns can be rebuilt, and the bytes of the index start with an image of the kind.
-/

namespace Vdb

namespace Database

open Metadata Reader

/-! ### The images of the three kinds -/

theorem getVec_ok {bs rest : Bytes} {v : Vec} (h : getVec bs = .ok (v, rest)) :
    bs = putVec v ++ rest ∧ v.length < 2 ^ 64 := by
  obtain ⟨n, mid, hn, h₁⟩ := bind_ok h
  obtain ⟨hbs, hlt⟩ := nat_ok hn
  obtain ⟨xs, rest', hxs, h₂⟩ := bind_ok h₁
  obtain ⟨rfl, rfl⟩ := pure_ok h₂
  have hnum : ∀ {bs rest : Bytes} {n : ℕ}, getNumber 4 bs = .ok (n, rest) →
      bs = putNat 4 n ++ rest ∧ n < 2 ^ 32 := nat_ok
  obtain ⟨rfl, rfl, hall⟩ := many_ok hnum hxs
  refine ⟨?_, by rwa [List.length_map]⟩
  rw [hbs, putVec, List.length_map, List.append_assoc, List.flatMap_map]
  congr 2
  exact List.flatMap_congr fun x hx => by rw [UInt32.toNat_ofNat_of_lt' (hall x hx)]

theorem getIds_ok {bs rest : Bytes} {ids : List InternalId} (h : getIds bs = .ok (ids, rest)) :
    bs = putIds ids ++ rest ∧ IdsFit ids := by
  obtain ⟨n, mid, hn, h₁⟩ := bind_ok h
  obtain ⟨hbs, hlt⟩ := nat_ok hn
  have hnum : ∀ {bs rest : Bytes} {n : ℕ}, getNumber 4 bs = .ok (n, rest) →
      bs = putNat 4 n ++ rest ∧ n < 2 ^ 32 := nat_ok
  obtain ⟨rfl, rfl, hall⟩ := many_ok hnum h₁
  exact ⟨hbs.trans (List.append_assoc ..).symm, hlt, hall⟩

/-- The lengths of a node are 64-bit numbers, and its neighbours 32-bit ones. -/
def NodeFits (n : Hnsw.Node Vec) : Prop :=
  n.data.length < 2 ^ 64 ∧ n.neighbours.length < 2 ^ 64 ∧ ∀ ids ∈ n.neighbours, IdsFit ids

theorem getNode_ok {bs rest : Bytes} {n : Hnsw.Node Vec}
    (h : HNSWState.getNode bs = .ok (n, rest)) : bs = HNSWState.putNode n ++ rest ∧ NodeFits n := by
  obtain ⟨data, b₁, hdata, h₁⟩ := bind_ok h
  obtain ⟨nl, b₂, hnl, h₂⟩ := bind_ok h₁
  obtain ⟨neighbours, b₃, hids, h₃⟩ := bind_ok h₂
  obtain ⟨rfl, rfl⟩ := pure_ok h₃
  obtain ⟨rfl, hlen⟩ := getVec_ok hdata
  obtain ⟨rfl, hlayers⟩ := nat_ok hnl
  obtain ⟨rfl, rfl, hall⟩ := many_ok getIds_ok hids
  exact ⟨by simp only [HNSWState.putNode, List.append_assoc], hlen, hlayers, hall⟩

/-- What is written of a graph. -/
structure GraphImage where
  entryPoint : ℕ
  maxLayer : ℕ
  efSearch : ℕ
  nodes : List (Hnsw.Node Vec)

namespace GraphImage

def bytes (g : GraphImage) : Bytes :=
  putNat 4 g.entryPoint ++ (putNat 4 g.maxLayer ++ (putNat 8 g.efSearch ++
    (putNat 8 g.nodes.length ++ g.nodes.flatMap HNSWState.putNode)))

/-- The fields have their widths, and there is room for the nodes. -/
structure Fits (g : GraphImage) : Prop where
  entryPoint : g.entryPoint < 2 ^ 32
  maxLayer : g.maxLayer < 2 ^ 32
  efSearch : g.efSearch < 2 ^ 64
  room : g.nodes.length ≤ 2 ^ 20
  nodes : ∀ n ∈ g.nodes, NodeFits n

end GraphImage

/-- The bytes start with an image of an index of this kind; the flag of an IVF index is any byte. -/
def Index.Image (kind : IndexKind) (bs : Bytes) : Prop :=
  match kind with
  | .brute => ∃ x : BruteIndex, x.SizesFit ∧ x.serialize <+: bs
  | .ivf => ∃ (b : UInt8) (x : IVFIndex), x.SizesFit ∧ b :: x.serialize.tail <+: bs
  | .hnsw => ∃ g : GraphImage, g.Fits ∧ g.bytes <+: bs

theorem BruteIndex.deserialize_iff {bs : Bytes} : (∃ x rest, deserialize bs = .ok (x, rest)) ↔
    ∃ x : BruteIndex, x.SizesFit ∧ x.serialize <+: bs := by
  constructor
  · rintro ⟨x, rest, h⟩
    obtain ⟨dim, b₁, hr₁, h₁⟩ := bind_ok h
    obtain ⟨n, b₂, hr₂, h₂⟩ := bind_ok h₁
    obtain ⟨data, b₃, hdata, h₃⟩ := bind_ok h₂
    obtain ⟨rfl, rfl⟩ := pure_ok h₃
    obtain ⟨rfl, hdim⟩ := nat_ok hr₁
    obtain ⟨rfl, hlen⟩ := nat_ok hr₂
    obtain ⟨rfl, rfl, hall⟩ := many_ok getVec_ok hdata
    exact ⟨⟨dim, data⟩, ⟨hdim, hlen, hall⟩,
      b₃, by simp only [BruteIndex.serialize, List.append_assoc]⟩
  · rintro ⟨x, hfit, rest, rfl⟩
    exact ⟨x, rest, BruteIndex.reads hfit rest⟩

theorem IVFIndex.deserialize_iff {bs : Bytes} : (∃ x rest, deserialize bs = .ok (x, rest)) ↔
    ∃ (b : UInt8) (x : IVFIndex), x.SizesFit ∧ b :: x.serialize.tail <+: bs := by
  have hbyte : ∀ b : UInt8, putNat 1 b.toNat = [b] := fun b => by
    rw [putNat, putNat, UInt8.ofNat_toNat]
  constructor
  · rintro ⟨x, rest, h⟩
    obtain ⟨trained, b₁, hr₁, h₁⟩ := bind_ok h
    obtain ⟨nlist, b₂, hr₂, h₂⟩ := bind_ok h₁
    obtain ⟨nprobe, b₃, hr₃, h₃⟩ := bind_ok h₂
    obtain ⟨nc, b₄, hr₄, h₄⟩ := bind_ok h₃
    obtain ⟨centroids, b₅, hr₅, h₅⟩ := bind_ok h₄
    obtain ⟨nl, b₆, hr₆, h₆⟩ := bind_ok h₅
    obtain ⟨invertedLists, b₇, hr₇, h₇⟩ := bind_ok h₆
    obtain ⟨nv, b₈, hr₈, h₈⟩ := bind_ok h₇
    obtain ⟨vectors, b₉, hr₉, h₉⟩ := bind_ok h₈
    obtain ⟨rfl, rfl⟩ := pure_ok h₉
    obtain ⟨rfl, htrained⟩ := nat_ok hr₁
    obtain ⟨rfl, hnlist⟩ := nat_ok hr₂
    obtain ⟨rfl, hnprobe⟩ := nat_ok hr₃
    obtain ⟨rfl, hnc⟩ := nat_ok hr₄
    obtain ⟨rfl, rfl, hcentroids⟩ := many_ok getVec_ok hr₅
    obtain ⟨rfl, hnl⟩ := nat_ok hr₆
    obtain ⟨rfl, rfl, hlists⟩ := many_ok getIds_ok hr₇
    obtain ⟨rfl, hnv⟩ := nat_ok hr₈
    obtain ⟨rfl, rfl, hvectors⟩ := many_ok getVec_ok hr₉
    refine ⟨UInt8.ofNat trained, { nlist, nprobe, centroids, invertedLists, vectors },
      ⟨hnlist, hnprobe, ⟨hnc, hcentroids⟩, ⟨hnl, hlists⟩, hnv, hvectors⟩, b₉, ?_⟩
    have hfirst := hbyte (UInt8.ofNat trained)
    rw [UInt8.toNat_ofNat_of_lt' htrained] at hfirst
    rw [hfirst]
    simp only [IVFIndex.serialize, List.append_assoc, List.tail_cons,
      List.cons_append]
  · rintro ⟨b, x, hfit, rest, rfl⟩
    have hread : (getNumber 1).Reads [b] b.toNat := by
      have hr := reads_nat truncated (w := 1) b.toNat_lt
      rwa [hbyte] at hr
    have hend := (reads_vecs hfit.vectors.2).bind_pure fun vectors => ({
      trained := b.toNat ≠ 0, nlist := x.nlist, nprobe := x.nprobe, centroids := x.centroids
      invertedLists := x.invertedLists, vectors } : IVFIndex)
    have hall : deserialize.Reads (b :: x.serialize.tail) { x with trained := b.toNat ≠ 0 } := by
      unfold IVFIndex.deserialize IVFIndex.serialize
      refine hread.bind
        ((Column.reads_number hfit.nlist).bind ((Column.reads_number hfit.nprobe).bind
        ((Column.reads_number hfit.centroids.1).bind ((reads_vecs hfit.centroids.2).bind
        ((Column.reads_number hfit.invertedLists.1).bind ((reads_idLists hfit.invertedLists.2).bind
        ((Column.reads_number hfit.vectors.1).bind ?_)))))))
      exact hend
    exact ⟨_, rest, hall rest⟩

theorem HNSWState.deserialize_iff {bs : Bytes} :
    (∃ x rest, new.deserialize bs = .ok (x, rest)) ↔ ∃ g : GraphImage, g.Fits ∧ g.bytes <+: bs := by
  constructor
  · rintro ⟨x, rest, h⟩
    obtain ⟨entryPoint, b₁, hr₁, h₁⟩ := bind_ok h
    obtain ⟨maxLayer, b₂, hr₂, h₂⟩ := bind_ok h₁
    obtain ⟨efSearch, b₃, hr₃, h₃⟩ := bind_ok h₂
    obtain ⟨n, b₄, hr₄, h₄⟩ := bind_ok h₃
    dsimp only at h₄
    by_cases hroom : new.graph.config.maxElements < n
    · rw [if_pos hroom] at h₄
      cases h₄
    · rw [if_neg hroom] at h₄
      obtain ⟨nodes, b₅, hnodes, h₅⟩ := bind_ok h₄
      obtain ⟨rfl, rfl⟩ := pure_ok h₅
      obtain ⟨rfl, hentry⟩ := nat_ok hr₁
      obtain ⟨rfl, hlayer⟩ := nat_ok hr₂
      obtain ⟨rfl, hef⟩ := nat_ok hr₃
      obtain ⟨rfl, -⟩ := nat_ok hr₄
      obtain ⟨rfl, rfl, hall⟩ := many_ok getNode_ok hnodes
      exact ⟨⟨entryPoint, maxLayer, efSearch, nodes⟩,
        ⟨hentry, hlayer, hef, not_lt.1 hroom, hall⟩, b₅,
        by simp only [GraphImage.bytes, List.append_assoc]⟩
  · rintro ⟨g, hfit, rest, rfl⟩
    have hnodes : (many getNode g.nodes.length).Reads (g.nodes.flatMap putNode) g.nodes := by
      have hread : (many getNode g.nodes.length).Reads (g.nodes.flatMap putNode)
          (g.nodes.map id) := reads_many fun n hn =>
        reads_node (hfit.nodes n hn).1 (hfit.nodes n hn).2.1 (hfit.nodes n hn).2.2
      rwa [List.map_id] at hread
    have hroom : ¬ new.graph.config.maxElements < g.nodes.length := not_lt.2 hfit.room
    have hcount : g.nodes.length < 2 ^ 64 := hfit.room.trans_lt (by decide)
    have hend := hnodes.bind_pure fun nodes => ({ new with
      efSearch := g.efSearch
      graph := { new.graph with
        entryPoint := g.entryPoint, maxLayer := toInt32 g.maxLayer, count := g.nodes.length
        nodes := fun i => nodes.getD i ⟨[], []⟩ } } : HNSWState)
    have hall : new.deserialize.Reads g.bytes { new with
        efSearch := g.efSearch
        graph := { new.graph with
          entryPoint := g.entryPoint, maxLayer := toInt32 g.maxLayer, count := g.nodes.length
          nodes := fun i => g.nodes.getD i ⟨[], []⟩ } } := by
      unfold deserialize GraphImage.bytes
      refine (reads_nat truncated hfit.entryPoint).bind ((reads_nat truncated hfit.maxLayer).bind
        ((Column.reads_number hfit.efSearch).bind ((Column.reads_number hcount).bind ?_)))
      rw [if_neg hroom]
      exact hend
    exact ⟨_, rest, hall rest⟩

/-- **What a kind reads** is what starts with an image of it. -/
theorem Index.deserialize_iff {config : VDBConfig} {bs : Bytes} :
    (∃ x rest, (Index.make config).deserialize bs = .ok (x, rest)) ↔ Image config.kind bs := by
  have hwrap : ∀ {α : Type} (r : Reader Exn α) (f : α → Index),
      (∃ x rest, (f <$> r) bs = .ok (x, rest)) ↔ ∃ x rest, r bs = .ok (x, rest) := by
    intro α r f
    constructor
    · rintro ⟨x, rest, h⟩
      obtain ⟨a, ha, -⟩ := map_ok h
      exact ⟨a, rest, ha⟩
    · rintro ⟨a, rest, h⟩
      refine ⟨f a, rest, ?_⟩
      change (r bs >>= fun p => Except.ok (f p.1, p.2)) = _
      rw [h]
      rfl
  unfold Index.make Image
  cases config.kind with
  | brute => exact (hwrap _ _).trans BruteIndex.deserialize_iff
  | ivf => exact (hwrap _ _).trans IVFIndex.deserialize_iff
  | hnsw => exact (hwrap _ _).trans HNSWState.deserialize_iff

namespace VDB

variable {ι : Type} [ColumnIndex ι] {db db' : VDB ι} {config config' : VDBConfig} {lsn : ℕ}

omit [ColumnIndex ι] in
/-- Another schema is seen by its fingerprint. -/
theorem deserialize_fails {s t : MetadataStore ι} (h : s.fingerprint ≠ t.fingerprint) :
    t.deserialize.Fails s.serialize := by
  unfold MetadataStore.deserialize MetadataStore.serialize
  refine Reads.bind_fails (reads_nat truncated (UInt64.toNat_lt _)) ?_
  rw [if_pos fun he => h (UInt64.toNat_inj.1 he)]
  exact fails_throw _ _

/-- **A load** of a database by one of another configuration throws, unless nothing in the file
tells them apart. -/
theorem Regular.load_error (h : db.Regular config) (hw : db.WordSized lsn)
    (hnew' : VDB.new config' = .ok db')
    (hfp : computeFingerprint config.schema = computeFingerprint config'.schema →
      config.schema = config'.schema) :
    (∃ e, db'.load (db.save lsn) = .error e) ↔
      ¬ (config.dim % 2 ^ 32 = config'.dim ∧ config.metric = config'.metric ∧
        config.schema = config'.schema ∧ db.Rebuilds ∧
        Index.Image config'.kind db.index.serialize) := by
  obtain ⟨m, hm, rfl⟩ : ∃ m, MetadataStore.new config'.schema = .ok m ∧
      db' = { config := config', index := Index.make config', metadata := m } := by
    unfold VDB.new at hnew'
    cases hm : (MetadataStore.new config'.schema : Except Exn (MetadataStore ι)) with
    | error e =>
      rw [hm] at hnew'
      cases hnew'
    | ok m =>
      rw [hm] at hnew'
      cases hnew'
      exact ⟨m, rfl, rfl⟩
  have hfps : m.fingerprint = computeFingerprint config'.schema := by
    unfold MetadataStore.new at hm
    split at hm <;> cases hm
    rfl
  obtain rfl : db.config = config := h.configured
  have hfile : db.save lsn = db.save lsn ++ [] := (List.append_nil _).symm
  rw [hfile]
  by_cases hconfig : db.config.dim % 2 ^ 32 = config'.dim ∧ db.config.metric = config'.metric
  · obtain ⟨hdim, hmetric⟩ := hconfig
    rw [load_save _ hdim hmetric hw.lsn hw.sizes hw.liveCount hw.deletedCount
      (h.deleted ▸ hw.sizes.rows) (h.vectors ▸ hw.sizes.rows), List.append_nil]
    by_cases hschema : db.config.schema = config'.schema
    · rw [← hschema] at hm
      have hread := h.metadata.rereads hw.sizes.metadata hw.dict hm
      rw [loadRest, hread.bind_apply]
      have himage : (∃ x rest, (Index.make config').deserialize db.index.serialize =
        .ok (x, rest)) ↔
          Index.Image config'.kind db.index.serialize := Index.deserialize_iff
      unfold Rebuilds
      cases hrows : db.metadata.reread.rebuildDerivedState db.deleted with
      | error e m' =>
        -- the columns come first
        have hrebuilt : (rebuilt db.deleted db.metadata.reread).Fails db.index.serialize := by
          unfold rebuilt
          rw [hrows]
          exact fails_throw e _
        refine iff_of_true ?_ fun hsame => hsame.2.2.2.1
        rw [← List.append_nil db.index.serialize]
        exact hrebuilt.bind _ []
      | ok _ m' =>
        have hrebuilt : (rebuilt db.deleted db.metadata.reread).Reads [] m' := by
          unfold rebuilt
          rw [hrows]
          exact reads_pure m'
        rw [← List.nil_append db.index.serialize, hrebuilt.bind_apply, List.nil_append]
        constructor
        · rintro ⟨e, he⟩ ⟨-, -, -, -, hi⟩
          obtain ⟨x, rest, hx⟩ := himage.2 hi
          change ((Index.make config').deserialize db.index.serialize >>= fun p => _) = _ at he
          rw [hx] at he
          cases he
        · intro hno
          cases hx : (Index.make config').deserialize db.index.serialize with
          | ok p => exact absurd ⟨hdim, hmetric, hschema, trivial, himage.1 ⟨p.1, p.2, hx⟩⟩ hno
          | error e =>
            refine ⟨e, ?_⟩
            change ((Index.make config').deserialize db.index.serialize >>= fun p => _) = _
            rw [hx]
            rfl
    · have hfails : (loadRest { config := config', index := Index.make config', metadata := m } db
          lsn).Fails (db.metadata.serialize) := by
        refine (deserialize_fails ?_).bind _
        rw [h.metadata.fingerprint, hfps]
        exact mt hfp hschema
      exact iff_of_true (hfails db.index.serialize) fun hsame => hschema hsame.2.2.1
  · refine iff_of_true (load_fails _ lsn ?_ []) fun hsame => hconfig ⟨hsame.1, hsame.2.1⟩
    by_contra hne
    exact hconfig ⟨by tauto, by tauto⟩

end VDB

namespace System

variable {ι δ : Type} [ColumnIndex ι] [Distance δ] {K : Kernels δ} {db₀ db' : VDB ι}
  {config config' : VDBConfig} {lsn : ℕ}

/-- **A snapshot of another configuration** is refused, or misread. -/
theorem mismatch_iff (hnew : VDB.new config = .ok db₀) (steps : List Step)
    (h : Run.Along (step K) (fun s a => s.Writes a) { db := db₀ } steps)
    (hw : (steps.foldl (step K) { db := db₀ }).db.WordSized lsn) (hnew' : VDB.new config' = .ok db')
    (hfp : computeFingerprint config.schema = computeFingerprint config'.schema →
      config.schema = config'.schema) :
    let db := (steps.foldl (step K) { db := db₀ }).db
    (∃ e, db'.load (db.save lsn) = .error e) ↔
      ¬ (config.dim % 2 ^ 32 = config'.dim ∧ config.metric = config'.metric ∧
        config.schema = config'.schema ∧ db.Rebuilds ∧
        Index.Image config'.kind db.index.serialize) :=
  (Run.Along.invariant (I := fun s : System ι δ => s.db.Regular config)
    (fun _ _ hs hp => regular_step hs hp) (VDB.regular_new hnew) h).load_error hw hnew' hfp

/-- A Brute index of one row that is removed again, read as a graph. -/
theorem mismatch_reloaded :
    let db := (reloaded.foldl (step (ι := PairIndex) onePlace) { db := small.db }).db
    (∃ e, (VDB.plainDb .hnsw).load (db.save 5) = .error e) ↔
      ¬ (1 % 2 ^ 32 = 1 ∧ Metric.l2 = .l2 ∧ ([] : List AttrSpec) = [] ∧ db.Rebuilds ∧
        Index.Image .hnsw db.index.serialize) :=
  mismatch_iff (K := onePlace) new_small reloaded
    ⟨trivial, trivial, trivial, trivial, by decide +kernel, trivial, trivial⟩ (by decide +kernel)
    (VDB.new_plainDb .hnsw) fun _ => rfl

end System

/-- An IVF index is always empty, and its bytes are those of a graph without nodes. -/
theorem VDB.ivf_misread : (plainConfig .ivf).kind ≠ (plainConfig .hnsw).kind ∧
    ∃ db, (plainDb .hnsw).load ((plainDb .ivf).save 0) = .ok db := by
  refine ⟨by decide, ?_⟩
  have hok : ((plainDb .hnsw).load ((plainDb .ivf).save 0)).isOk = true := by decide +kernel
  cases h : (plainDb .hnsw).load ((plainDb .ivf).save 0) with
  | ok db => exact ⟨db, rfl⟩
  | error e =>
    rw [h] at hok
    cases hok

end Database

end Vdb
