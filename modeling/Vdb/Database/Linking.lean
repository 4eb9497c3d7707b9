import Vdb.Database.Concurrent
import Vdb.Hnsw.Turns

/-!
# Nodes while they are linked

What a call that is linking its node counts on, and what all other calls leave of it, also where
they throw.

* `Index.Extends` : the nodes of an index are still there.
* `Index.LinkOk` : the node of the call is one of them; its link goes on, and does not go on for
  ever.
-/

namespace Vdb

namespace Database

open Metadata
open Hnsw (HNSWIndex Pc)

namespace Index

variable {δ : Type} [Distance δ] {K : Kernels δ} {metric : Metric} {x x' x'' : Index}
  {iid : InternalId} {pc : Pc δ} {vec : Vec}

/-- An index that may come of `x`. -/
structure Extends (x x' : Index) : Prop where
  sound : x'.Sound
  grows : x.Grows x'
  size : x.size ≤ x'.size

/-- The search of a call has visited nodes of the graph, each once. -/
def PcTidy (pc : Pc δ) : Index → Prop
  | .hnsw x => pc.Tidy x.graph
  | _ => True

/-- What a call of `link` counts on. -/
structure LinkOk (x : Index) (iid : InternalId) (pc : Pc δ) : Prop where
  lt : iid < x.size
  valid : x.PcValid iid pc
  tidy : x.PcTidy pc

/-- The sections that a link may still run in a graph of a database. -/
def linkWork (pc : Pc δ) : ℕ := pc.work (2 ^ 20) (2 ^ 31)

theorem Extends.refl (h : x.Sound) : x.Extends x := ⟨h, System.grows_refl x, le_rfl⟩

theorem Extends.trans (h : x.Extends x') (h' : x'.Extends x'') : x.Extends x'' := by
  refine ⟨h'.sound, ?_, h.size.trans h'.size⟩
  have hg := h.grows
  have hg' := h'.grows
  cases x <;> cases x' <;> cases x'' <;>
    first | trivial | exact hg.elim | exact hg'.elim | exact fun lc i hi => hg' lc i (hg lc i hi)

omit [Distance δ] in
theorem LinkOk.mono (h : x.LinkOk iid pc) (he : x.Extends x') : x'.LinkOk iid pc := by
  refine ⟨h.lt.trans_le he.size, h.valid.mono he.grows, ?_⟩
  have htidy := h.tidy
  have hg := he.grows
  have hsize := he.size
  cases x <;> cases x' <;> first | trivial | exact hg.elim | exact Hnsw.Pc.Tidy.mono htidy hsize

/-- A vector is added or refused. -/
theorem Sound.extends_allocate (h : x.Sound) (K : Kernels δ) (metric : Metric) (vec : Vec) :
    x.Extends (x.allocate K metric vec).state := by
  cases ha : x.allocate K metric vec with
  | error e x' =>
    obtain rfl := allocate_error ha
    exact .refl h
  | ok iid x' =>
    obtain ⟨hsound, hgrows⟩ := h.allocate ha
    exact ⟨hsound, hgrows, (allocate_ok ha).2.1 ▸ Nat.le_succ _⟩

/-- A node that has been allocated is to be linked. -/
theorem linkOk_start (ha : x.allocate K metric vec = .ok iid x') :
    x'.LinkOk iid (Pc.start : Pc δ) := by
  refine ⟨?_, pcValid_start iid, by cases x' <;> trivial⟩
  rw [(allocate_ok ha).2.1, Nat.lt_succ_iff]
  cases x with
  | brute x =>
    cases ha
    dsimp only [size]
    rw [List.length_append, List.length_singleton, Nat.add_sub_cancel]
    exact Nat.mod_le _ _
  | ivf x =>
    rw [allocate, IVFIndex.add] at ha
    split_ifs at ha
    · cases ha
      exact Nat.mod_le _ _
    · cases ha
  | hnsw x =>
    rw [allocate, HNSWState.allocate, HNSWIndex.allocate] at ha
    split_ifs at ha
    · cases ha
    · cases ha
      exact Nat.mod_le _ _

/-- **A section of a link**: what other calls hold is still there, and it has less to do. -/
theorem LinkOk.linkSection (h : x.LinkOk iid pc) (hx : x.Sound) (K : Kernels δ) (metric : Metric) :
    x.Extends (x.linkSection K metric iid pc).1 ∧
      (x.linkSection K metric iid pc).1.LinkOk iid (x.linkSection K metric iid pc).2 ∧
        linkWork (x.linkSection K metric iid pc).2 ≤ linkWork pc - 1 := by
  obtain ⟨hsound, hvalid, hgrows⟩ := hx.linkSection K metric h.lt h.valid
  have hsize : (x.linkSection K metric iid pc).1.size = x.size := (size_linkSection iid pc).1
  have hwork : (x.linkSection K metric iid pc).1.PcTidy (x.linkSection K metric iid pc).2 ∧
      linkWork (x.linkSection K metric iid pc).2 ≤ linkWork pc - 1 := by
    cases x with
    | brute x => exact ⟨trivial, Nat.zero_le _⟩
    | ivf x => exact ⟨trivial, Nat.zero_le _⟩
    | hnsw x =>
      have hx : x.Sound := hx
      exact HNSWIndex.runSection_work (K.dist metric) hx.graph h.lt h.valid h.tidy hx.room
        (hx.maxLayer.2.le.trans (by decide))
  exact ⟨⟨hsound, hgrows, hsize.ge⟩, ⟨hsize.symm ▸ h.lt, hvalid, hwork.1⟩, hwork.2⟩

end Index

/-! ### Phases -/

namespace VDB

variable {ι δ : Type} [ColumnIndex ι] [Distance δ] {K : Kernels δ} {db : VDB ι} {ext : ExternalId}
  {iid old : InternalId} {vec : Vec} {rec : Record}

omit [ColumnIndex ι] in
theorem extends_andThen {α β : Type} {o : Outcome (VDB ι) α} {f : α → VDB ι → Outcome (VDB ι) β}
    (h : db.index.Extends o.state.index)
    (hf : ∀ a (db₁ : VDB ι), db₁.index.Sound → db₁.index.Extends (f a db₁).state.index) :
    db.index.Extends (o.andThen f).state.index :=
  Outcome.andThen_state (P := fun db₁ : VDB ι => db.index.Extends db₁.index) h
    fun a db₁ h₁ => h₁.trans (hf a db₁ h₁.sound)

omit [Distance δ] in
theorem index_goLive (db : VDB ι) (iid : InternalId) : (db.goLive iid).state.index = db.index := by
  unfold goLive
  dsimp only
  rw [Outcome.state_mapState]
  rfl

omit [Distance δ] in
theorem index_goDead (db : VDB ι) (iid : InternalId) : (db.goDead iid).state.index = db.index := by
  unfold goDead
  dsimp only
  rw [Outcome.state_mapState]
  rfl

omit [ColumnIndex ι] in
theorem extends_allocateNode (h : db.index.Sound) (K : Kernels δ) (ext : ExternalId) (vec : Vec) :
    db.index.Extends (db.allocateNode K ext vec).state.index := by
  have hext := h.extends_allocate K db.config.metric vec
  unfold allocateNode
  cases ha : db.index.allocate K db.config.metric vec with
  | error e index =>
    rw [ha] at hext
    exact hext
  | ok iid index =>
    rw [ha] at hext
    dsimp only
    split_ifs <;> exact hext

omit [ColumnIndex ι] in
theorem extends_insertAllocate (h : db.index.Sound) :
    db.index.Extends (db.insertAllocate K ext vec rec).state.index := by
  refine extends_andThen (extends_allocateNode h K ext vec) fun iid db₁ h₁ => ?_
  refine extends_andThen ?_ fun _ db₂ h₂ => ?_
  · rw [Outcome.state_mapState]
    exact .refl h₁
  · unfold keepAhead
    split_ifs <;> exact .refl h₂

omit [ColumnIndex ι] in
theorem extends_updateAllocate (h : db.index.Sound) (rec : Option Record) :
    db.index.Extends (db.updateAllocate K ext vec rec).state.index := by
  unfold updateAllocate
  split
  · exact .refl h
  · refine extends_andThen (extends_allocateNode h K ext vec) fun iid db₁ h₁ => ?_
    refine extends_andThen ?_ fun _ db₂ h₂ => .refl h₂
    rw [Outcome.state_mapState]
    exact .refl h₁

omit [ColumnIndex ι] in
theorem linkOk_allocateNode {db' : VDB ι} (h : db.allocateNode K ext vec = .ok iid db') :
    db'.index.LinkOk iid (Pc.start : Pc δ) := by
  obtain ⟨index, hindex, -, rfl⟩ := allocateNode_ok h
  exact Index.linkOk_start hindex

omit [ColumnIndex ι] in
/-- The node of an insert is to be linked. -/
theorem linkOk_insertAllocate {db' : VDB ι} (h : db.insertAllocate K ext vec rec = .ok iid db') :
    db'.index.LinkOk iid (Pc.start : Pc δ) := by
  obtain ⟨id, db₁, ha, h⟩ := Outcome.andThen_ok h
  obtain ⟨_, db₂, hm, h⟩ := Outcome.andThen_ok h
  obtain ⟨m, -, rfl⟩ := Outcome.mapState_ok hm
  cases h
  have hindex : ((db₁.withMetadata m).keepAhead ext).index = db₁.index := by
    unfold keepAhead
    split_ifs <;> rfl
  rw [hindex]
  exact linkOk_allocateNode ha

omit [ColumnIndex ι] in
/-- The node of an update is to be linked. -/
theorem linkOk_updateAllocate {db' : VDB ι} {rec : Option Record}
    (h : db.updateAllocate K ext vec rec = .ok (some (old, iid)) db') :
    db'.index.LinkOk iid (Pc.start : Pc δ) := by
  unfold updateAllocate at h
  split at h
  · cases h
  · obtain ⟨id, db₁, ha, h⟩ := Outcome.andThen_ok h
    obtain ⟨_, db₂, hm, h⟩ := Outcome.andThen_ok h
    obtain ⟨m, -, rfl⟩ := Outcome.mapState_ok hm
    cases h
    have hnode : db₁.index.LinkOk iid (Pc.start : Pc δ) := linkOk_allocateNode ha
    exact hnode

theorem extends_insertPublish (h : db.index.Sound) :
    db.index.Extends (db.insertPublish ext iid).state.index := by
  refine extends_andThen ?_ fun _ _ h₁ => .refl h₁
  rw [index_goLive]
  exact .refl h

theorem extends_updatePublish (h : db.index.Sound) :
    db.index.Extends (db.updatePublish ext old iid).state.index := by
  refine extends_andThen ?_ fun _ db₁ h₁ => ?_
  · rw [index_goLive]
    exact .refl h
  · have hdead := index_goDead { db₁ with deletedCount := db₁.deletedCount + 1 } old
    refine Outcome.andThen_state (P := fun db₂ : VDB ι => db₁.index.Extends db₂.index) ?_
      fun _ _ h₂ => h₂
    rw [hdead]
    exact .refl h₁

theorem extends_remove (h : db.index.Sound) : db.index.Extends (db.remove ext).state.index := by
  unfold remove
  split
  · exact .refl h
  · refine extends_andThen ?_ fun _ _ h₁ => .refl h₁
    rw [index_goDead]
    exact .refl h

theorem extends_setMetadata (h : db.index.Sound) :
    db.index.Extends (db.setMetadata ext rec).state.index := by
  unfold setMetadata
  split
  · exact .refl h
  · split
    · exact .refl h
    · refine extends_andThen ?_ fun _ _ h₁ => .refl h₁
      rw [Outcome.state_mapState]
      exact .refl h

end VDB

/-- The node that a call is linking, and where its link is. -/
def Call.linking {δ : Type} : Call δ → Option (InternalId × Pc δ)
  | .insertLinking _ _ iid pc => some (iid, pc)
  | .updateLinking _ _ _ iid pc => some (iid, pc)
  | _ => none

/-- The sections of an allocation, a link and a publication. -/
def nodeWork : ℕ := Hnsw.workBelow (2 ^ 20) (2 ^ 31 + 1) + 3

/-- The sections that a call may still run. -/
def Call.work {δ : Type} : Call δ → ℕ
  | .inserting _ _ => nodeWork
  | .updating _ _ => nodeWork
  | .insertLinking _ _ _ pc => Index.linkWork pc + 1
  | .updateLinking _ _ _ _ pc => Index.linkWork pc + 1

end Database

end Vdb
