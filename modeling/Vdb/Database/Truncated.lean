import Vdb.Database.Arrays

/-!
# Truncated snapshots

A snapshot has neither a length nor a checksum.  But a load never depends on the bytes it leaves,
and of a whole snapshot it leaves none: what it makes of a part of a file that does not throw, it
would make of the whole file, with the rest left over.

* `System.truncated_run` : in every state that concurrent calls reach, whether they throw or not, a
  load of a snapshot that has been cut short throws.
-/

namespace Vdb

open Reader

namespace Metadata

theorem local_getNumber (w : ℕ) : (getNumber w).Local := local_nat truncated w

theorem local_getBytes : getBytes.Local :=
  (local_getNumber 8).bind fun n => local_take truncated n

variable {ι : Type}

theorem Column.local_deserializeText (c : Column ι) : c.deserializeText.Local :=
  (local_getNumber 8).bind fun n => (local_getBytes.many n).bind fun _ => local_pure _

theorem Column.local_deserialize (c : Column ι) : c.deserialize.Local :=
  (local_getNumber 1).bind fun _ => (local_getNumber 8).bind fun n =>
    ((local_getNumber 8).many n).bind fun _ => ((local_getNumber 1).many n).bind fun _ =>
      (local_getNumber 8).bind fun m => (local_getBytes.many m).bind fun _ =>
        .ite _ ((Column.local_deserializeText _).bind fun _ => local_pure _)
          ((local_pure _).bind fun _ => local_pure _)

theorem Column.local_deserializeAll (cs : List (Column ι)) : (Column.deserializeAll cs).Local := by
  induction cs with
  | nil => exact local_pure []
  | cons c cs ih => exact c.local_deserialize.bind fun _ => ih.bind fun _ => local_pure _

theorem MetadataStore.local_deserialize [ColumnIndex ι] (s : MetadataStore ι) :
    s.deserialize.Local :=
  (local_getNumber 8).bind fun _ => .ite _ (local_throw _) <|
    (local_getNumber 8).bind fun _ => (local_getNumber 8).bind fun _ => .ite _ (local_throw _) <|
      (Column.local_deserializeAll _).bind fun _ => (local_getNumber 8).bind fun n =>
        (local_getBytes.many n).bind fun _ => local_pure _

/-! ### What every operation leaves of the metadata -/

namespace MetadataStore

variable {schema : List AttrSpec} {s : MetadataStore ι} {rec : Record}

/-- A loop over the columns, whether it throws or not. -/
theorem Regular.loop (h : s.Regular schema) (f : ℕ → Column ι → Outcome (Column ι) Unit)
    (hf : ∀ a c n, c.Sized n → ∃ m, (f a c).state.Sized m) :
    (s.withColumns (forColumns f 0 s.columns).state).Regular schema := by
  obtain ⟨hlen, hall⟩ := forColumns_state f 0 s.columns
  refine ⟨h.declared, h.fingerprint, hlen.trans h.columns, fun c' hc' => ?_⟩
  obtain ⟨a, ha⟩ := List.getElem?_of_mem hc'
  obtain ⟨c, hc, hround⟩ := hall a c' ha
  obtain ⟨n, hn⟩ := h.sized c (List.mem_of_getElem? hc)
  rcases hround with rfl | rfl
  · exact ⟨n, hn⟩
  · exact hf _ c n hn

variable [ColumnIndex ι]

theorem Regular.adjust (h : s.Regular schema) (i : InternalId) (b : Bool) :
    ((forColumns (fun _ c => c.adjust i b) 0 s.columns).mapState s.withColumns).state.Regular
      schema := by
  rw [Outcome.state_mapState]
  exact h.loop _ fun _ c n hc => ⟨n, (Column.sameRows_adjust c i b).sized hc⟩

theorem Regular.setRow (h : s.Regular schema) (i : InternalId) (rec : Record) :
    (s.setRow i rec).state.Regular schema := by
  unfold MetadataStore.setRow
  cases validate s.schema rec with
  | error e => exact h
  | ok _ =>
    refine Outcome.andThen_state ?_ fun _ _ hs =>
      ⟨hs.declared, hs.fingerprint, hs.columns, hs.sized⟩
    rw [Outcome.state_mapState]
    exact h.loop _ fun a _ n hc => ⟨n, hc.setRow i (rec.attr a)⟩

theorem Regular.permute (h : s.Regular schema) (live : List InternalId) :
    (s.permute live).state.Regular schema := by
  unfold MetadataStore.permute
  refine Outcome.andThen_state ?_ fun _ _ hs => ⟨hs.declared, hs.fingerprint, hs.columns, hs.sized⟩
  rw [Outcome.state_mapState]
  exact h.loop _ fun _ _ _ hc => ⟨live.length, hc.permute live⟩

omit [ColumnIndex ι] in
theorem Regular.appendRow (h : s.Regular schema) (rec : Record) :
    (s.appendRow rec).state.Regular schema := by
  unfold MetadataStore.appendRow
  cases validate s.schema rec with
  | error e => exact h
  | ok _ =>
    refine ⟨h.declared, h.fingerprint, ?_, fun c' hc' => ?_⟩
    · exact (List.length_map _).trans (List.length_mapIdx.trans h.columns)
    · obtain ⟨c₁, hc₁, rfl⟩ := List.mem_map.1 hc'
      obtain ⟨a, ha⟩ := List.getElem?_of_mem hc₁
      obtain ⟨c, hc, rfl⟩ := Option.map_eq_some_iff.1 ((List.getElem?_mapIdx ..).symm.trans ha)
      obtain ⟨n, hn⟩ := h.sized c (List.mem_of_getElem? hc)
      exact ⟨n + 1, (Column.sameRows_addPosting _ _).sized (hn.appendValue _)⟩

omit [ColumnIndex ι] in
theorem Regular.appendRowCopy (h : s.Regular schema) (src : InternalId) :
    (s.appendRowCopy src).Regular schema := by
  refine ⟨h.declared, h.fingerprint, ?_, fun c' hc' => ?_⟩
  · exact (List.length_map _).trans ((List.length_map _).trans h.columns)
  · obtain ⟨c₁, hc₁, rfl⟩ := List.mem_map.1 hc'
    obtain ⟨c, hc, rfl⟩ := List.mem_map.1 hc₁
    obtain ⟨n, hn⟩ := h.sized c hc
    rw [Column.appendCopy_eq]
    exact ⟨n + 1, (Column.sameRows_addPosting _ _).sized (hn.push _)⟩

theorem Regular.reread (h : s.Regular schema) : s.reread.Regular schema where
  declared := h.declared
  fingerprint := h.fingerprint
  columns := by
    rw [MetadataStore.reread, List.length_zipWith, List.length_map, h.declared, h.columns, min_self]
  sized c' hc' := by
    obtain ⟨a, ha⟩ := List.getElem?_of_mem hc'
    rw [MetadataStore.reread, List.getElem?_zipWith_eq_some] at ha
    obtain ⟨c, t, hc, ht, rfl⟩ := ha
    obtain ⟨spec, -, rfl⟩ := Option.map_eq_some_iff.1 ((List.getElem?_map ..).symm.trans ht)
    obtain ⟨n, hn⟩ := h.sized c (List.mem_of_getElem? hc)
    exact ⟨n, (Column.reread_keeps hn ⟨rfl, rfl, rfl⟩).1⟩

/-- The columns that the loop of `rebuild_derived_state` leaves. -/
theorem rebuildRows_state (deleted : List Bool) (ids : List InternalId) {cs : List (Column ι)}
    (h : ∀ c ∈ cs, ∃ n, c.Sized n) :
    (rebuildRows deleted ids cs).state.length = cs.length ∧
      ∀ c ∈ (rebuildRows deleted ids cs).state, ∃ n, c.Sized n := by
  induction ids generalizing cs with
  | nil => exact ⟨rfl, h⟩
  | cons i ids ih =>
    rw [rebuildRows]
    split_ifs
    · exact ih h
    · have hround : ∀ c ∈ (forColumns (fun _ (c : Column ι) => c.rebuildRow i) 0 cs).state,
          ∃ n, c.Sized n := by
        intro c' hc'
        obtain ⟨a, ha⟩ := List.getElem?_of_mem hc'
        obtain ⟨c, hc, hstep⟩ := (forColumns_state _ 0 cs).2 a c' ha
        obtain ⟨n, hn⟩ := h c (List.mem_of_getElem? hc)
        rcases hstep with rfl | rfl
        · exact ⟨n, hn⟩
        · exact ⟨n, ((Column.sameRows_adjust c i true).sized hn).posted i⟩
      have hlen := (forColumns_state (fun _ (c : Column ι) => c.rebuildRow i) 0 cs).1
      refine Outcome.andThen_state
        (P := fun cs' : List (Column ι) => cs'.length = cs.length ∧ ∀ c ∈ cs', ∃ n, c.Sized n)
        ⟨hlen, hround⟩ fun _ cs' hs => ?_
      obtain ⟨hlen', hsized⟩ := ih hs.2
      exact ⟨hlen'.trans hs.1, hsized⟩

theorem Regular.rebuildDerivedState (h : s.Regular schema) (deleted : List Bool) :
    (s.rebuildDerivedState deleted).state.Regular schema := by
  have hclear : ∀ c ∈ s.columns.map Column.clearDerived, ∃ n, c.Sized n := by
    intro c' hc'
    obtain ⟨c, hc, rfl⟩ := List.mem_map.1 hc'
    obtain ⟨n, hn⟩ := h.sized c hc
    exact ⟨n, (Column.sameData_clearDerived c).sized hn⟩
  obtain ⟨hlen, hsized⟩ := rebuildRows_state deleted (List.range s.rows) hclear
  unfold MetadataStore.rebuildDerivedState
  rw [Outcome.state_mapState]
  exact ⟨h.declared, h.fingerprint, hlen.trans ((List.length_map _).trans h.columns), hsized⟩

end MetadataStore

end Metadata

namespace Database

open Metadata
open Hnsw (HNSWIndex Pc)

theorem local_getVec : getVec.Local :=
  (local_getNumber 8).bind fun n => ((local_getNumber 4).many n).bind fun _ => local_pure _

theorem local_getIds : getIds.Local :=
  (local_getNumber 8).bind fun n => (local_getNumber 4).many n

theorem BruteIndex.local_deserialize : BruteIndex.deserialize.Local :=
  (local_getNumber 8).bind fun _ => (local_getNumber 8).bind fun n =>
    (local_getVec.many n).bind fun _ => local_pure _

theorem IVFIndex.local_deserialize : IVFIndex.deserialize.Local :=
  (local_getNumber 1).bind fun _ => (local_getNumber 8).bind fun _ =>
    (local_getNumber 8).bind fun _ => (local_getNumber 8).bind fun nc =>
      (local_getVec.many nc).bind fun _ => (local_getNumber 8).bind fun nl =>
        (local_getIds.many nl).bind fun _ => (local_getNumber 8).bind fun nv =>
          (local_getVec.many nv).bind fun _ => local_pure _

theorem HNSWState.local_getNode : getNode.Local :=
  local_getVec.bind fun _ => (local_getNumber 8).bind fun nl =>
    (local_getIds.many nl).bind fun _ => local_pure _

theorem HNSWState.local_deserialize (x : HNSWState) : x.deserialize.Local :=
  (local_getNumber 4).bind fun _ => (local_getNumber 4).bind fun _ =>
    (local_getNumber 8).bind fun _ => (local_getNumber 8).bind fun n =>
      .ite _ (local_throw _) <| (local_getNode.many n).bind fun _ => local_pure _

theorem Index.local_deserialize (x : Index) : x.deserialize.Local := by
  cases x with
  | brute x => exact BruteIndex.local_deserialize.map Index.brute
  | ivf x => exact IVFIndex.local_deserialize.map Index.ivf
  | hnsw x => exact x.local_deserialize.map Index.hnsw

/-! ### What every operation leaves of an index -/

namespace HNSWState

variable {δ : Type} [Distance δ] {K : Kernels δ} {x : HNSWState}

/-- The graph has room for its nodes, and no node more lists than there are levels. -/
structure Bounded (x : HNSWState) : Prop where
  config : x.graph.config = {}
  room : x.graph.count ≤ 2 ^ 20
  levels : ∀ i, (x.graph.nodes i).neighbours.length ≤ 2 ^ 31

omit [Distance δ] in
theorem Bounded.allocate (h : x.Bounded) (vec : Vec) : (x.allocate K.level vec).state.Bounded := by
  unfold HNSWState.allocate HNSWIndex.allocate
  split_ifs with hfull
  · exact h
  · rw [h.config] at hfull
    refine ⟨h.config, not_le.1 hfull, fun i => ?_⟩
    change (Function.update x.graph.nodes x.graph.count _ i).neighbours.length ≤ _
    by_cases hi : i = x.graph.count
    · rw [hi, Function.update_self, List.length_replicate]
      exact K.level_lt x.draws
    · rw [Function.update_of_ne hi]
      exact h.levels i

theorem Bounded.linkSection (h : x.Bounded) (dist : Vec → Vec → δ) (id : InternalId) (pc : Pc δ) :
    (x.linkSection dist id pc).1.Bounded := by
  refine ⟨?_, (Hnsw.System.count_runSection dist x.graph id pc).trans_le h.room, fun i => ?_⟩
  · change (x.graph.runSection dist id pc).1.config = {}
    cases pc <;> simp only [HNSWIndex.runSection] <;> (try split_ifs) <;> exact h.config
  · change ((x.graph.runSection dist id pc).1.nodes i).neighbours.length ≤ _
    cases pc <;> simp only [HNSWIndex.runSection] <;> (try split_ifs) <;>
      first | exact h.levels i | exact (length_setLinks i).le.trans (h.levels i)

theorem Bounded.link (h : x.Bounded) (dist : Vec → Vec → δ) (id : InternalId) :
    (x.link dist id).Bounded := by
  have hiter : ∀ (n : ℕ) (s : HNSWState × Pc δ), s.1.Bounded →
      ((fun s : HNSWState × Pc δ => s.1.linkSection dist id s.2)^[n] s).1.Bounded := by
    intro n
    induction n with
    | zero => exact fun s hs => hs
    | succ n ih =>
      intro s hs
      rw [Function.iterate_succ_apply]
      exact ih _ (hs.linkSection dist id s.2)
  exact hiter _ _ h

theorem reads_ids_mod {l : List InternalId} (h : l.length < 2 ^ 64) :
    getIds.Reads (putIds l) (l.map (· % 2 ^ 32)) := by
  have hmany : (many (getNumber 4) l.length).Reads (l.flatMap (putNat 4))
      (l.map (· % 256 ^ 4)) := reads_many fun i _ => reads_nat_mod truncated 4 i
  exact (Column.reads_number h).bind hmany

/-- The node with its ids in 32 bits. -/
def narrow (n : Hnsw.Node Vec) : Hnsw.Node Vec :=
  ⟨n.data, n.neighbours.map fun ids => ids.map (· % 2 ^ 32)⟩

/-- The bytes of a graph are read, whatever ids it holds. -/
theorem Bounded.reads (h : x.Bounded) (hs : x.SizesFit) :
    ∃ y : HNSWState, new.deserialize.Reads x.serialize y ∧ y.Bounded := by
  have hnode : ∀ n ∈ x.nodeList, getNode.Reads (putNode n) (narrow n) := by
    intro n hn
    obtain ⟨hdata, hids⟩ := hs n hn
    obtain ⟨i, -, rfl⟩ := List.mem_map.1 hn
    have hlayers : (x.graph.nodes i).neighbours.length < 2 ^ 64 :=
      (h.levels i).trans_lt (by decide)
    unfold getNode putNode
    exact (reads_vec hdata).bind ((Column.reads_number hlayers).bind
      ((reads_many fun ids hmem => reads_ids_mod (hids ids hmem)).bind_pure
        fun neighbours => (⟨_, neighbours⟩ : Hnsw.Node Vec)))
  have hnodes : (many getNode x.graph.count).Reads (x.nodeList.flatMap putNode)
      (x.nodeList.map narrow) := by
    have hlen : x.nodeList.length = x.graph.count := by simp [nodeList]
    rw [← hlen]
    exact reads_many hnode
  have hroom : ¬ new.graph.config.maxElements < x.graph.count := not_lt.2 h.room
  have hcount : x.graph.count < 2 ^ 64 := h.room.trans_lt (by decide)
  refine ⟨{ new with
    efSearch := x.efSearch % 256 ^ 8
    graph := { new.graph with
      entryPoint := x.graph.entryPoint % 256 ^ 4
      maxLayer := toInt32 ((x.graph.maxLayer % 2 ^ 32).toNat % 256 ^ 4), count := x.graph.count
      nodes := fun i => (x.nodeList.map narrow).getD i ⟨[], []⟩ } }, ?_, rfl, h.room, fun i => ?_⟩
  · unfold HNSWState.deserialize HNSWState.serialize
    refine (reads_nat_mod truncated 4 _).bind ((reads_nat_mod truncated 4 _).bind
      ((reads_nat_mod truncated 8 _).bind ((Column.reads_number hcount).bind ?_)))
    rw [if_neg hroom]
    exact hnodes.bind_pure _
  · dsimp only
    rw [List.getD_eq_getElem?_getD, List.getElem?_map]
    cases hi : x.nodeList[i]? with
    | none => exact Nat.zero_le _
    | some n =>
      obtain ⟨j, -, rfl⟩ := List.mem_map.1 (List.mem_of_getElem? hi)
      exact (List.length_map _).trans_le (h.levels j)

end HNSWState

namespace Index

variable {δ : Type} [Distance δ] {K : Kernels δ} {metric : Metric} {config : VDBConfig} {x : Index}

/-- An index of the kind of the database, with room for its nodes. -/
def Bounded (config : VDBConfig) (x : Index) : Prop :=
  x.kind = config.kind ∧
    match x with
    | .hnsw x => x.Bounded
    | _ => True

theorem bounded_make (config : VDBConfig) : (make config).Bounded config := by
  refine ⟨(size_make config).2, ?_⟩
  unfold make
  cases config.kind with
  | hnsw => exact ⟨rfl, Nat.zero_le _, fun _ => Nat.zero_le _⟩
  | _ => trivial

theorem Bounded.allocate (h : x.Bounded config) (vec : Vec) :
    (x.allocate K metric vec).state.Bounded config := by
  cases x with
  | brute x => exact ⟨h.1, trivial⟩
  | ivf x =>
    rw [Index.allocate, Outcome.state_mapState]
    exact ⟨h.1, trivial⟩
  | hnsw x =>
    rw [Index.allocate, Outcome.state_mapState]
    exact ⟨h.1, HNSWState.Bounded.allocate h.2 vec⟩

theorem Bounded.linkSection (h : x.Bounded config) (id : InternalId) (pc : Pc δ) :
    (x.linkSection K metric id pc).1.Bounded config := by
  cases x with
  | hnsw x => exact ⟨h.1, HNSWState.Bounded.linkSection h.2 (K.dist metric) id pc⟩
  | _ => exact ⟨h.1, trivial⟩

theorem Bounded.link (h : x.Bounded config) (id : InternalId) :
    (x.link K metric id).Bounded config := by
  cases x with
  | hnsw x => exact ⟨h.1, HNSWState.Bounded.link h.2 (K.dist metric) id⟩
  | _ => exact ⟨h.1, trivial⟩

theorem Bounded.train (h : x.Bounded config) (data : List Vec) :
    (x.train K metric data).Bounded config := by
  cases x with
  | ivf x => exact ⟨h.1, trivial⟩
  | _ => exact h

theorem Bounded.reads (h : x.Bounded config) (hs : x.SizesFit) :
    ∃ y : Index, (make config).deserialize.Reads x.serialize y ∧ y.Bounded config := by
  obtain ⟨hkind, hx⟩ := h
  unfold make
  rw [← hkind]
  cases x with
  | brute x => exact ⟨.brute x, (BruteIndex.reads hs).map Index.brute, hkind, trivial⟩
  | ivf x => exact ⟨.ivf x, (IVFIndex.reads hs).map Index.ivf, hkind, trivial⟩
  | hnsw x =>
    obtain ⟨y, hread, hy⟩ := HNSWState.Bounded.reads hx hs
    exact ⟨.hnsw y, hread.map Index.hnsw, hkind, hy⟩

end Index

namespace VDB

variable {ι : Type} [ColumnIndex ι]

theorem local_rebuilt (deleted : List Bool) (m : MetadataStore ι) : (rebuilt deleted m).Local := by
  unfold rebuilt
  cases m.rebuildDerivedState deleted with
  | ok _ m => exact local_pure m
  | error e _ => exact local_throw e

/-- **A load** does not depend on the bytes it leaves. -/
theorem local_load (db : VDB ι) : db.load.Local :=
  (local_getNumber 4).bind fun _ => .ite _ (local_throw _) <|
    (local_getNumber 2).bind fun _ => .ite _ (local_throw _) <|
      (local_getNumber 4).bind fun _ => (local_getNumber 1).bind fun _ => .ite _ (local_throw _) <|
        (local_getNumber 8).bind fun _ => (local_getNumber 8).bind fun _ =>
          (local_getNumber 8).bind fun _ => (local_getNumber 8).bind fun _ =>
            (local_getNumber 8).bind fun nExt => ((local_getNumber 8).many nExt).bind fun _ =>
              (local_getNumber 8).bind fun nDel => ((local_getNumber 1).many nDel).bind fun _ =>
                (local_getNumber 8).bind fun nVec => (local_getVec.many nVec).bind fun _ =>
                  (MetadataStore.local_deserialize _).bind fun _ =>
                  (local_rebuilt _ _).bind fun _ =>
                    (Index.local_deserialize _).bind fun _ => local_pure _

/-! ### What every operation leaves of a database -/

variable {δ : Type} [Distance δ] {K : Kernels δ} {config : VDBConfig} {db db₀ : VDB ι}
  {ext : ExternalId} {iid old : InternalId} {vec : Vec} {rec : Record} {lsn : ℕ}

/-- The arrays that are written with one count agree on it, and the index fits the one of a fresh
database. -/
structure Regular (config : VDBConfig) (db : VDB ι) : Prop where
  configured : db.config = config
  index : db.index.Bounded config
  deleted : db.deleted.length = db.intToExt.length
  vectors : db.vectors.length = db.intToExt.length
  metadata : db.metadata.Regular config.schema

omit [Distance δ] in
theorem regular_new (hnew : VDB.new config = .ok db) : db.Regular config := by
  unfold VDB.new at hnew
  cases hm : (MetadataStore.new config.schema : Except Exn (MetadataStore ι)) with
  | error e =>
    rw [hm] at hnew
    cases hnew
  | ok m =>
    rw [hm] at hnew
    cases hnew
    have hholds := MetadataStore.holds_new
      (J := fun _ c (rows : List ColRow) => c.Sized rows.length)
      hm fun _ spec _ => Column.sized_new spec
    exact ⟨rfl, Index.bounded_make config, rfl, rfl, hholds.regular fun _ _ _ hc => hc⟩

omit [ColumnIndex ι] in
theorem Regular.allocateNode (h : db.Regular config) (ext : ExternalId) (vec : Vec) :
    (db.allocateNode K ext vec).state.Regular config := by
  have hindex : (db.index.allocate K db.config.metric vec).state.Bounded config :=
    h.index.allocate vec
  unfold VDB.allocateNode
  cases ha : db.index.allocate K db.config.metric vec with
  | error e index =>
    rw [ha] at hindex
    exact ⟨h.configured, hindex, h.deleted, h.vectors, h.metadata⟩
  | ok iid index =>
    rw [ha] at hindex
    dsimp only
    split_ifs
    · exact ⟨h.configured, hindex, h.deleted, h.vectors, h.metadata⟩
    · refine ⟨h.configured, hindex, ?_, ?_, h.metadata⟩
      · change (db.deleted ++ [true]).length = (db.intToExt ++ [ext]).length
        rw [List.length_append, List.length_append, h.deleted]
        rfl
      · change (db.vectors ++ [vec]).length = (db.intToExt ++ [ext]).length
        rw [List.length_append, List.length_append, h.vectors]
        rfl

omit [ColumnIndex ι] [Distance δ] in
/-- An operation on the metadata. -/
theorem Regular.mapMetadata (h : db.Regular config) {o : Outcome (MetadataStore ι) Unit}
    (ho : o.state.Regular config.schema) : (o.mapState db.withMetadata).state.Regular config := by
  rw [Outcome.state_mapState]
  exact ⟨h.configured, h.index, h.deleted, h.vectors, ho⟩

omit [Distance δ] in
theorem Regular.goLive (h : db.Regular config) (iid : InternalId) :
    (db.goLive iid).state.Regular config := by
  have hmarked : { db with deleted := db.deleted.set iid false
                           deletedCount := decrement db.deletedCount }.Regular config :=
    ⟨h.configured, h.index, List.length_set.trans h.deleted, h.vectors, h.metadata⟩
  exact hmarked.mapMetadata (h.metadata.adjust iid true)

omit [Distance δ] in
theorem Regular.goDead (h : db.Regular config) (iid : InternalId) :
    (db.goDead iid).state.Regular config := by
  have hmarked : { db with deleted := db.deleted.set iid true }.Regular config :=
    ⟨h.configured, h.index, List.length_set.trans h.deleted, h.vectors, h.metadata⟩
  exact hmarked.mapMetadata (h.metadata.adjust iid false)

omit [ColumnIndex ι] in
theorem Regular.insertAllocate (h : db.Regular config) :
    (db.insertAllocate K ext vec rec).state.Regular config :=
  Outcome.andThen_state (h.allocateNode ext vec) fun _ s hs =>
    Outcome.andThen_state (hs.mapMetadata (hs.metadata.appendRow rec)) fun _ s hs => by
      dsimp only [Outcome.state]
      unfold VDB.keepAhead
      split_ifs
      · exact ⟨hs.configured, hs.index, hs.deleted, hs.vectors, hs.metadata⟩
      · exact hs

omit [ColumnIndex ι] in
theorem Regular.updateAllocate (h : db.Regular config) {rec : Option Record} :
    (db.updateAllocate K ext vec rec).state.Regular config := by
  unfold VDB.updateAllocate
  cases db.extToInt ext with
  | none => exact h
  | some old =>
    refine Outcome.andThen_state (h.allocateNode ext vec) fun _ s hs =>
      Outcome.andThen_state (hs.mapMetadata ?_) fun _ s hs => hs
    cases rec with
    | none => exact hs.metadata.appendRowCopy old
    | some rec => exact hs.metadata.appendRow rec

omit [Distance δ] in
theorem Regular.insertPublish (h : db.Regular config) :
    (db.insertPublish ext iid).state.Regular config :=
  Outcome.andThen_state (h.goLive iid) fun _ _ hs =>
    ⟨hs.configured, hs.index, hs.deleted, hs.vectors, hs.metadata⟩

omit [Distance δ] in
theorem Regular.updatePublish (h : db.Regular config) :
    (db.updatePublish ext old iid).state.Regular config :=
  Outcome.andThen_state (h.goLive iid) fun _ s hs => by
    have hcounted : { s with deletedCount := s.deletedCount + 1 }.Regular config :=
      ⟨hs.configured, hs.index, hs.deleted, hs.vectors, hs.metadata⟩
    exact Outcome.andThen_state (hcounted.goDead old) fun _ _ hs =>
      ⟨hs.configured, hs.index, hs.deleted, hs.vectors, hs.metadata⟩

omit [Distance δ] in
theorem Regular.remove (h : db.Regular config) : (db.remove ext).state.Regular config := by
  unfold VDB.remove
  cases db.extToInt ext with
  | none => exact h
  | some iid =>
    exact Outcome.andThen_state (h.goDead iid) fun _ _ hs =>
      ⟨hs.configured, hs.index, hs.deleted, hs.vectors, hs.metadata⟩

omit [Distance δ] in
theorem Regular.setMetadata (h : db.Regular config) :
    (db.setMetadata ext rec).state.Regular config := by
  unfold VDB.setMetadata
  cases db.validate rec with
  | error e => exact h
  | ok _ =>
    cases db.extToInt ext with
    | none => exact h
    | some iid =>
      exact Outcome.andThen_state (h.mapMetadata (h.metadata.setRow iid rec)) fun _ _ hs => hs

omit [ColumnIndex ι] in
/-- The last loop of a compaction. -/
theorem Regular.appendAll (h : db.Regular config) (rows : List (ExternalId × Vec)) :
    (appendAll K rows db).state.Regular config := by
  induction rows generalizing db with
  | nil => exact h
  | cons r rows ih =>
    obtain ⟨ext, vec⟩ := r
    refine Outcome.andThen_state ?_ fun iid s hs =>
      ih ⟨hs.configured, hs.index, hs.deleted, hs.vectors, hs.metadata⟩
    have hindex : (db.index.allocate K db.config.metric vec).state.Bounded config :=
      h.index.allocate vec
    unfold VDB.append Index.add
    cases ha : db.index.allocate K db.config.metric vec with
    | error e index =>
      rw [ha] at hindex
      exact ⟨h.configured, hindex, h.deleted, h.vectors, h.metadata⟩
    | ok iid index =>
      rw [ha] at hindex
      dsimp only
      split_ifs
      · exact ⟨h.configured, hindex.link iid, h.deleted, h.vectors, h.metadata⟩
      · refine ⟨h.configured, hindex.link iid, ?_, ?_, h.metadata⟩
        · change (db.deleted ++ [false]).length = (db.intToExt ++ [ext]).length
          rw [List.length_append, List.length_append, h.deleted]
          rfl
        · change (db.vectors ++ [vec]).length = (db.intToExt ++ [ext]).length
          rw [List.length_append, List.length_append, h.vectors]
          rfl

theorem Regular.compact (h : db.Regular config) : (db.compact K).state.Regular config := by
  have hmoved : { db with
      vectors := db.vectors.mapIdx fun i v => if db.deleted.getD i false then v else [] }.Regular
        config :=
    ⟨h.configured, h.index, h.deleted, List.length_mapIdx.trans h.vectors, h.metadata⟩
  unfold VDB.compact
  refine Outcome.andThen_state (hmoved.mapMetadata (h.metadata.permute db.liveIds)) fun _ s hs => ?_
  have hclear : s.clear.Regular config := by
    refine ⟨hs.configured, ?_, rfl, rfl, hs.metadata⟩
    change (Index.make s.config).Bounded config
    rw [hs.configured]
    exact Index.bounded_make config
  have htrain : ∀ data,
    (s.clear.withIndex (s.clear.index.train K s.clear.config.metric data)).Regular
      config := fun data =>
    ⟨hclear.configured, hclear.index.train data, hclear.deleted, hclear.vectors, hclear.metadata⟩
  dsimp only
  split_ifs
  · exact (htrain _).appendAll _
  · exact hclear.appendAll _

/-! ### Saving and loading -/

omit [Distance δ] in
/-- **A load** of a whole snapshot throws, or takes all of it. -/
theorem Regular.load_spans (h : db.Regular config) (hnew : VDB.new config = .ok db₀)
    (hw : db.WordSized lsn) : db₀.load.Spans (db.save lsn) := by
  unfold VDB.new at hnew
  cases hm : (MetadataStore.new config.schema : Except Exn (MetadataStore ι)) with
  | error e =>
    rw [hm] at hnew
    cases hnew
  | ok t =>
    rw [hm] at hnew
    cases hnew
    by_cases hdim : db.config.dim % 2 ^ 32 = config.dim
    · intro rest a left hload
      rw [load_save _ hdim (by rw [h.configured]) hw.lsn hw.sizes hw.liveCount hw.deletedCount
        (h.deleted ▸ hw.sizes.rows) (h.vectors ▸ hw.sizes.rows), ← List.append_assoc] at hload
      have hread := h.metadata.rereads hw.sizes.metadata hw.dict hm
      obtain ⟨y, hindex, -⟩ := h.index.reads hw.sizes.index
      refine hread.bind_spans ?_ rest a left hload
      cases hrows : db.metadata.reread.rebuildDerivedState db.deleted with
      | ok _ m =>
        have hrebuilt : (rebuilt db.deleted db.metadata.reread).Reads [] m := by
          unfold rebuilt
          rw [hrows]
          exact reads_pure m
        rw [← List.nil_append db.index.serialize]
        exact hrebuilt.bind_spans (hindex.bind_pure _).spans
      | error e m =>
        have hrebuilt : (rebuilt db.deleted db.metadata.reread).Fails db.index.serialize := by
          unfold rebuilt
          rw [hrows]
          exact fails_throw e _
        exact (hrebuilt.bind _).spans
    · exact (load_fails _ lsn (.inl hdim)).spans

omit [Distance δ] in
theorem Regular.reload (h : db.Regular config) (hw : db.WordSized lsn) :
    (db.reload lsn).Regular config := by
  unfold VDB.reload VDB.new
  cases hm : (MetadataStore.new db.config.schema : Except Exn (MetadataStore ι)) with
  | error e => exact h
  | ok t =>
    dsimp only
    by_cases hdim : db.config.dim % 2 ^ 32 = db.config.dim
    · have hread := h.metadata.rereads hw.sizes.metadata hw.dict (h.configured ▸ hm)
      obtain ⟨y, hindex, hy⟩ := h.index.reads hw.sizes.index
      rw [← h.configured] at hindex
      have hstate := h.metadata.reread.rebuildDerivedState db.deleted
      rw [← List.append_nil (db.save lsn), load_save
        { config := db.config, index := Index.make db.config, metadata := t } hdim rfl
          hw.lsn hw.sizes
        hw.liveCount hw.deletedCount (h.deleted ▸ hw.sizes.rows) (h.vectors ▸ hw.sizes.rows),
          loadRest,
        hread.bind_apply]
      cases hrows : db.metadata.reread.rebuildDerivedState db.deleted with
      | ok _ m =>
        rw [hrows] at hstate
        have hrebuilt : (rebuilt db.deleted db.metadata.reread).Reads [] m := by
          unfold rebuilt
          rw [hrows]
          exact reads_pure m
        rw [← List.nil_append (db.index.serialize ++ []), hrebuilt.bind_apply, hindex.bind_apply]
        exact ⟨h.configured, hy, h.deleted, h.vectors, hstate⟩
      | error e m =>
        have hrebuilt : (rebuilt db.deleted db.metadata.reread).Fails db.index.serialize := by
          unfold rebuilt
          rw [hrows]
          exact fails_throw e _
        obtain ⟨e', he⟩ := hrebuilt.bind _ []
        rw [he]
        exact h
    · obtain ⟨e, he⟩ := load_fails
        { config := db.config, index := Index.make db.config, metadata := t }
        lsn (.inl hdim) []
      rw [List.append_nil] at he
      rw [he]
      exact h

end VDB

/-! ### Runs -/

namespace System

variable {ι δ : Type} [ColumnIndex ι] [Distance δ] {K : Kernels δ} {s : System ι δ}
  {config : VDBConfig} {db₀ : VDB ι} {next : Step} {lsn : ℕ}

/-- The sizes of the containers fit the words of the file that a reload writes. -/
def Writes (s : System ι δ) : Step → Prop
  | .act _ => True
  | .reload lsn => s.db.WordSized lsn

instance : DecidablePred s.Writes
  | .act _ => .isTrue trivial
  | .reload lsn => inferInstanceAs (Decidable (s.db.WordSized lsn))

omit [ColumnIndex ι] [Distance δ] in
theorem db_phase {α : Type} (ext : ExternalId) (o : Outcome (VDB ι) α)
    (next : α → Option (Call δ)) :
    (s.phase ext o next).state.db = o.state := by
  cases o <;> rfl

omit [ColumnIndex ι] [Distance δ] in
theorem db_whole {α : Type} (o : Outcome (VDB ι) α) : (s.whole o).state.db = o.state := by
  cases o <;> rfl

/-- **Every step** leaves a database that can be read back, whatever it throws. -/
theorem regular_step (h : s.db.Regular config) (hw : s.Writes next) :
    (s.step K next).db.Regular config := by
  cases next with
  | reload lsn => exact h.reload hw
  | act a =>
    change (s.perform K a).state.db.Regular config
    cases a with
    | insert vec rec =>
      dsimp only [perform]
      cases s.db.validate rec with
      | error e => exact h
      | ok _ => exact ⟨h.configured, h.index, h.deleted, h.vectors, h.metadata⟩
    | insertReserved ext vec rec =>
      dsimp only [perform, begin]
      cases s.db.validate rec <;> exact h
    | update ext vec rec =>
      dsimp only [perform, begin]
      cases s.db.validateUpdate rec <;> exact h
    | allocate ext =>
      dsimp only [perform]
      rcases s.calls ext with _ | ⟨vec, rec⟩ | _ | ⟨vec, rec⟩ | _
      · exact h
      · refine Outcome.andThen_state
          (P := fun s : System ι δ => s.db.Regular config) ?_ fun _ _ hs => hs
        rw [db_phase]
        exact h.insertAllocate
      · exact h
      · rw [db_phase]
        exact h.updateAllocate
      · exact h
    | link ext =>
      -- a section of a link changes the graph only
      have hsection : ∀ iid (pc : Pc δ) (next : Pc δ → Call δ),
          (s.linkSection K ext iid pc next).db.Regular config := fun iid pc next =>
        ⟨h.configured, h.index.linkSection iid pc, h.deleted, h.vectors, h.metadata⟩
      dsimp only [perform]
      rcases s.calls ext with _ | _ | ⟨vec, rec, iid, pc⟩ | _ | ⟨vec, rec, old, iid, pc⟩
      · exact h
      · exact h
      · exact hsection iid pc _
      · exact h
      · exact hsection iid pc _
    | publish ext =>
      dsimp only [perform]
      split
      · rw [db_phase]
        exact h.insertPublish
      · rw [db_phase]
        exact h.updatePublish
      · exact h
    | remove ext =>
      dsimp only [perform]
      rw [db_whole]
      exact h.remove
    | setMetadata ext rec =>
      dsimp only [perform]
      rw [db_whole]
      exact h.setMetadata
    | compact =>
      dsimp only [perform]
      rw [db_whole]
      exact h.compact

/-- **A snapshot that has been cut short** is not accepted, in any state that calls and reloads
reach, however they interleave and whatever they throw. -/
theorem truncated_run (hnew : VDB.new config = .ok db₀) (steps : List Step)
    (h : Run.Along (step K) (fun s a => s.Writes a) { db := db₀ } steps)
    (hw : (steps.foldl (step K) { db := db₀ }).db.WordSized lsn) {cut : Bytes}
    (hcut : cut <+: (steps.foldl (step K) { db := db₀ }).db.save lsn)
    (hne : cut ≠ (steps.foldl (step K) { db := db₀ }).db.save lsn) :
    ∃ e, db₀.load cut = .error e := by
  have hregular := Run.Along.invariant (I := fun s : System ι δ => s.db.Regular config)
    (fun s a hs hp => regular_step (K := K) hs hp) (VDB.regular_new hnew) h
  exact (VDB.local_load db₀).cut (hregular.load_spans hnew hw) hcut hne

/-- A row is inserted and removed, and the last byte of the file lost. -/
theorem truncated_reloaded :
    let db := (reloaded.foldl (step (ι := PairIndex) onePlace) small).db
    ∃ e, small.db.load (db.save 7).dropLast = .error e := by
  intro db
  have hwritten : db.save 7 ≠ [] := by
    unfold VDB.save
    exact List.append_ne_nil_of_left_ne_nil (by decide) _
  refine truncated_run (K := onePlace) new_small reloaded
    ⟨trivial, trivial, trivial, trivial, by decide +kernel, trivial, trivial⟩ (by decide +kernel)
    (List.dropLast_prefix _) fun heq => ?_
  have hlen := congrArg List.length heq
  rw [List.length_dropLast] at hlen
  exact absurd hlen (Nat.sub_one_lt (List.length_pos_of_ne_nil hwritten).ne').ne

end System

end Database

end Vdb
