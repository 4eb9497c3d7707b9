import Vdb.Database.Alignment
import Vdb.Durable.Reopen

/-!
# Room for a replay

A replay adds one row at most for each insert and each update, so that an index with room for these
takes them all.  What may still throw is the index of a column.

* `kept_applyRecord` : a record that is applied adds a row at most.
* `applyAll_indexThrows` : a log whose records pass is replayed if the index has room, unless the
  index of a column throws.
-/

namespace Vdb

open Metadata Database

namespace Metadata

variable {ι : Type} [ColumnIndex ι]

/-- An insert into the index of a column throws it. -/
def IndexThrows (ι : Type) [ColumnIndex ι] (e : Exn) : Prop :=
  ∃ (t t' : ι) (key : UInt64) (id : InternalId), ColumnIndex.insert t key id = .error e t'

theorem insert_throws (t : ι) (key : UInt64) (id : InternalId) :
    (ColumnIndex.insert t key id).ThrowsOnly (IndexThrows ι) := by
  cases ht : ColumnIndex.insert t key id with
  | ok _ t' => trivial
  | error e t' => exact ⟨t, t', key, id, ht⟩

end Metadata

namespace WalRecord

/-- The record may add a row. -/
def adds (r : WalRecord) : Bool :=
  match r.type with
  | .insert | .update => true
  | .delete | .setMeta | .checkpoint | .unknown _ _ => false

end WalRecord

namespace Database

variable {ι δ : Type} [ColumnIndex ι] [Distance δ] {K : Kernels δ} {config : VDBConfig}

namespace Index

variable {x x' : Index} {metric : Metric} {vec : Vec}

/-- An index that has taken a vector had room for it. -/
theorem Sound.room (h : x.Sound) (ha : x.allocate K metric vec = .ok x.size x') :
    x.size < x.kind.capacity := by
  obtain ⟨hlt, -, -⟩ := allocate_ok ha
  cases x with
  | brute x => exact hlt
  | ivf x => exact hlt
  | hnsw x =>
    have hcount : ¬ x.graph.config.maxElements ≤ x.graph.count := by
      intro hfull
      rw [Index.allocate, HNSWState.allocate, Hnsw.HNSWIndex.allocate, if_pos hfull] at ha
      cases ha
    rw [h.config] at hcount
    exact not_le.1 hcount

end Index

namespace VDB

variable {db db' : VDB ι} {ext : ExternalId} {iid : InternalId} {vec : Vec} {rec : Record}
  {es : List Entry} {J : ℕ → Column ι → List ColRow → Prop}

omit [ColumnIndex ι] in
theorem kept_of_holds (h : db.Holds J config es)
    (hroom : db.intToExt.length ≤ config.kind.capacity) : db.Kept config where
  configured := h.configured
  kind := h.kind
  sound := h.sound
  size := by
    rwa [h.ids, List.length_map, ← h.size] at hroom
  aligned :=
  { ids := by rw [h.ids, List.length_map, h.size]
    deleted := by rw [h.deleted, List.length_map, h.size]
    vectors := by rw [h.vectors, List.length_map, h.size]
    rows := by rw [h.metadata.rowCount, List.length_map, h.size] }

omit [ColumnIndex ι] in
/-- A database that has taken a node had room for it. -/
theorem Kept.room (h : db.Kept config) (ha : db.allocateNode K ext vec = .ok iid db') :
    config.kind ≠ .ivf ∧ db.index.size < config.kind.capacity := by
  obtain ⟨index, hindex, rfl, -⟩ := allocateNode_ok ha
  refine ⟨fun hk => ?_, ?_⟩
  · rw [h.sound.refuses K db.config.metric vec (h.kind.trans hk)] at hindex
    cases hindex
  · rw [h.aligned.ids] at hindex
    rw [← h.kind]
    exact h.sound.room hindex

/-! ### A call that has returned -/

theorem allocates_of_insertReserved (he : db.insertReserved K ext vec rec = .ok () db') :
    ∃ iid db₁, db.allocateNode K ext vec = .ok iid db₁ := by
  unfold VDB.insertReserved at he
  split at he
  · cases he
  · obtain ⟨iid, db₁, halloc, -⟩ := Outcome.andThen_ok he
    obtain ⟨id, db₂, hnode, -⟩ := Outcome.andThen_ok halloc
    exact ⟨id, db₂, hnode⟩

theorem allocates_of_update {b : Bool} {rec : Option Record}
    (he : db.update K ext vec rec = .ok b db') (hx : db.contains ext = true) :
    ∃ iid db₁, db.allocateNode K ext vec = .ok iid db₁ := by
  unfold VDB.update at he
  split at he
  · cases he
  · obtain ⟨nodes, db₁, halloc, -⟩ := Outcome.andThen_ok he
    unfold VDB.updateAllocate at halloc
    cases hold : db.extToInt ext with
    | none =>
      rw [VDB.contains, hold] at hx
      cases hx
    | some old =>
      rw [hold] at halloc
      obtain ⟨id, db₂, hnode, -⟩ := Outcome.andThen_ok halloc
      exact ⟨id, db₂, hnode⟩

omit [Distance δ] in
theorem rows_of_remove {b : Bool} (he : db.remove ext = .ok b db') :
    db'.intToExt = db.intToExt := by
  unfold VDB.remove at he
  split at he
  · cases he
    rfl
  · obtain ⟨_, db₁, hdead, he⟩ := Outcome.andThen_ok he
    obtain ⟨m, -, rfl⟩ := goDead_ok hdead
    cases he
    rfl

omit [Distance δ] in
theorem rows_of_setMetadata {b : Bool} (he : db.setMetadata ext rec = .ok b db') :
    db'.intToExt = db.intToExt := by
  unfold VDB.setMetadata at he
  split at he
  · cases he
  · split at he
    · cases he
      rfl
    · obtain ⟨_, db₁, hset, he⟩ := Outcome.andThen_ok he
      obtain ⟨m, -, rfl⟩ := Outcome.mapState_ok hset
      cases he
      rfl

/-! ### What a call throws where the index has room -/

section

variable {P : Exn → Prop} (hP : ∀ (t : ι) key id, (ColumnIndex.insert t key id).ThrowsOnly P)
include hP

theorem Kept.insertReserved_throwsOnly (h : db.Kept config) (hivf : config.kind ≠ .ivf)
    (hroom : db.index.size < config.kind.capacity) (hv : db.validate rec = .ok ()) :
    (db.insertReserved K ext vec rec).ThrowsOnly P := by
  obtain ⟨index, -, -, -, -, ha⟩ := h.allocateNode (K := K) hivf hroom ext vec
  obtain ⟨m, hm⟩ := appendRow_returns hv
  rw [VDB.insertReserved, hv]
  dsimp only
  rw [VDB.insertAllocate, ha]
  dsimp only [Outcome.andThen]
  rw [hm]
  exact insertPublish_throwsOnly hP _ ext _

theorem Kept.update_throwsOnly (h : db.Kept config) (hivf : config.kind ≠ .ivf)
    (hroom : db.index.size < config.kind.capacity) (hv : db.validate rec = .ok ()) :
    (db.update K ext vec (some rec)).ThrowsOnly P := by
  obtain ⟨index, -, -, -, -, ha⟩ := h.allocateNode (K := K) hivf hroom ext vec
  obtain ⟨m, hm⟩ := appendRow_returns hv
  have hvalid : db.validateUpdate (some rec) = .ok () := hv
  rw [VDB.update, hvalid]
  dsimp only
  rw [VDB.updateAllocate]
  cases db.extToInt ext with
  | none => trivial
  | some old =>
    dsimp only
    rw [ha]
    dsimp only [Outcome.andThen, VDB.appendMetadata]
    rw [hm]
    exact (updatePublish_throwsOnly hP _ ext old _).andThen fun _ _ _ => trivial

end

end VDB

end Database

namespace Durable

open DurableVDB (applyRecord)

variable {ι δ : Type} [ColumnIndex ι] [Distance δ] {K : Kernels δ} {config : VDBConfig}
  {db db' : VDB ι} {r : WalRecord} {rs : List WalRecord}

/-- **A record that is applied** adds a row at most. -/
theorem kept_applyRecord (h : db.Kept config) (he : applyRecord K r db = .ok () db') :
    db'.Kept config ∧ db'.intToExt.length ≤ db.intToExt.length + r.adds.toNat := by
  -- only an insert and an update take a node, and they have returned with it
  obtain ⟨type, lsn, ext, vec, rec⟩ := r
  cases type with
  | insert =>
    have he : db.insertReserved K ext vec rec = .ok () db' := he
    obtain ⟨iid, db₁, ha⟩ := VDB.allocates_of_insertReserved he
    have hkept : (db.insertReserved K ext vec rec).state.Kept config :=
      h.insertReserved fun _ => h.room ha
    rw [he] at hkept
    refine ⟨hkept, ?_⟩
    rw [(VDB.insertReserved_rows he).1, List.length_append]
    exact le_rfl
  | update =>
    obtain ⟨b, db₁, hupdate, he⟩ := Outcome.andThen_ok he
    cases he
    have hkept : (db.update K ext vec (some rec)).state.Kept config := h.update fun _ hx =>
      let ⟨_, _, ha⟩ := VDB.allocates_of_update hupdate hx
      h.room ha
    change db.update K ext vec (some rec) = .ok b db' at hupdate
    rw [hupdate] at hkept
    refine ⟨hkept, ?_⟩
    rcases (VDB.update_rows hupdate).1 with hrows | ⟨-, hrows⟩
    · rw [hrows]
      exact Nat.le_add_right ..
    · rw [hrows, List.length_append]
      exact le_rfl
  | setMeta =>
    obtain ⟨b, db₁, hset, he⟩ := Outcome.andThen_ok he
    cases he
    have hkept : (db.setMetadata ext rec).state.Kept config := h.setMetadata
    change db.setMetadata ext rec = .ok b db' at hset
    rw [hset] at hkept
    exact ⟨hkept, (congrArg List.length (VDB.rows_of_setMetadata hset)).le⟩
  | delete =>
    obtain ⟨b, db₁, hremove, he⟩ := Outcome.andThen_ok he
    cases he
    have hkept : (db.remove ext).state.Kept config := h.remove
    change db.remove ext = .ok b db' at hremove
    rw [hremove] at hkept
    exact ⟨hkept, (congrArg List.length (VDB.rows_of_remove hremove)).le⟩
  | _ =>
    cases he
    exact ⟨h, le_rfl⟩

theorem kept_applyAll (h : db.Kept config) (he : applyAll (applyRecord K) rs db = .ok () db') :
    db'.Kept config := by
  induction rs generalizing db with
  | nil =>
    cases he
    exact h
  | cons r rs ih =>
    obtain ⟨_, db₁, hr, he⟩ := Outcome.andThen_ok he
    exact ih (kept_applyRecord h hr).1 he

/-- A record that passes, and for which there is room. -/
theorem applyRecord_indexThrows (h : db.Kept config) (hivf : config.kind ≠ .ivf)
    (hroom : db.intToExt.length + r.adds.toNat ≤ config.kind.capacity)
    (haccepted : r.Accepted db.metadata.schema) :
    (applyRecord K r db).ThrowsOnly (IndexThrows ι) := by
  rw [h.aligned.ids] at hroom
  obtain ⟨type, lsn, ext, vec, rec⟩ := r
  cases type with
  | insert => exact h.insertReserved_throwsOnly insert_throws hivf hroom haccepted
  | update =>
    exact (h.update_throwsOnly insert_throws hivf hroom haccepted).andThen fun _ _ _ => trivial
  | setMeta => exact (VDB.setMetadata_throwsOnly insert_throws haccepted).andThen fun _ _ _ =>
    trivial
  | delete => exact (VDB.remove_throwsOnly db ext).andThen fun _ _ _ => trivial
  | _ => trivial

/-- **A log whose records pass** is replayed where the index has room for them, unless the index of
a column throws. -/
theorem applyAll_indexThrows (h : db.Kept config) (hivf : config.kind ≠ .ivf)
    (hid : ∀ r ∈ rs, ∀ x ∈ r.minted, x + 1 < 2 ^ 64)
    (hroom : db.intToExt.length + rs.countP WalRecord.adds ≤ config.kind.capacity)
    (haccepted : ∀ r ∈ rs, r.Accepted db.metadata.schema) :
    (applyAll (applyRecord K) rs db).ThrowsOnly (IndexThrows ι) := by
  induction rs generalizing db with
  | nil => trivial
  | cons r rs ih =>
    obtain ⟨hr, hrs⟩ := List.forall_mem_cons.1 hid
    obtain ⟨hone, hall⟩ := List.forall_mem_cons.1 haccepted
    have hcount : (r :: rs).countP WalRecord.adds = rs.countP WalRecord.adds + r.adds.toNat := by
      rw [List.countP_cons]
      cases r.adds <;> rfl
    rw [hcount] at hroom
    -- the first record takes what it may need; the others have as much as they had
    refine (applyRecord_indexThrows h hivf (by omega) hone).andThen fun _ db₁ he => ?_
    obtain ⟨hkept, hrows⟩ := kept_applyRecord h he
    have hlater := later_applyRecord (K := K) db hr
    rw [he] at hlater
    have hschema : db₁.metadata.schema = db.metadata.schema := hlater.schema
    refine ih hkept hrs (by omega) ?_
    rwa [hschema]

end Durable

end Vdb
