import Vdb.Database.Index

/-!
# The database

`VDB`: the identity maps, the parallel arrays by internal id, the metadata store and the index.
An insert or an update runs in phases: it allocates a pending node under the lock, links it without
the lock and publishes it under the lock again; every other operation is one phase.

* A vector argument is the list of the `dim` floats that are read from it.
* `next_ext_id_` is a 64-bit counter.  The other counters count rows: they cannot overflow, but
  `--` wraps at zero, and they are read modulo `2 ^ 64`.
* `compact` reserves room for `live_count_` rows, which is left out: it throws only when that
  counter has wrapped.
* Internal ids are exact below `2 ^ 32`.  Loops that count rows in an `InternalId` (those of
  `compact`, of the loading of a snapshot and of `rebuild_derived_state`) end as modelled while
  there are fewer rows than that; with `2 ^ 32` of them they would not end.
-/

namespace Vdb

namespace Database

open Metadata

/-- `--` on a `size_t`. -/
def decrement (n : ℕ) : ℕ := if n = 0 then 2 ^ 64 - 1 else n - 1

theorem decrement_eq {m n : ℕ} (h : n = m + 1) : decrement n = m := by
  subst h
  exact if_neg m.succ_ne_zero

structure VDB (ι : Type) where
  config : VDBConfig
  index : Index
  /-- Live ids only. -/
  extToInt : ExternalId → Option InternalId := fun _ => none
  /-- By internal id, like all the arrays below. -/
  intToExt : List ExternalId := []
  deleted : List Bool := []
  vectors : List Vec := []
  metadata : MetadataStore ι
  nextExtId : ExternalId := 0
  liveCount : ℕ := 0
  deletedCount : ℕ := 0

/-- `max_size` of a vector whose elements have so many bytes. -/
def maxSize (bytes : ℕ) : ℕ := (2 ^ 63 - 1) / bytes

def reserveError : Exn := .lengthError (ascii "vector::reserve")

/-- `reserve` on an empty vector. -/
def reserve (bytes n : ℕ) : Except Exn Unit :=
  if maxSize bytes < n then .error reserveError else .ok ()

/-- `sizeof(ExternalId)`. -/
def idBytes : ℕ := 8

/-- `sizeof(Hit)`: the id, the distance with its padding, and the three pointers of the payload. -/
def hitBytes : ℕ := 40

/-- A search result with its payload. -/
structure Hit (δ : Type) where
  id : ExternalId
  dist : δ
  payload : Bytes

namespace VDB

variable {ι δ : Type} [ColumnIndex ι] [Distance δ] (K : Kernels δ) (db : VDB ι)

def new (config : VDBConfig) : Except Exn (VDB ι) :=
  match MetadataStore.new config.schema with
  | .error e => .error e
  | .ok metadata => .ok { config, index := Index.make config, metadata }

def withMetadata (metadata : MetadataStore ι) : VDB ι := { db with metadata }

def withIndex (index : Index) : VDB ι := { db with index }

/-- `meta_.validate`. -/
def validate (rec : Record) : Except Exn Unit := Metadata.validate db.metadata.schema rec

/-- Append a node of the index to the arrays, not yet its metadata row. -/
def pushNode (ext : ExternalId) (vec : Vec) (deleted : Bool) : VDB ι :=
  { db with
    intToExt := db.intToExt ++ [ext], deleted := db.deleted ++ [deleted]
    vectors := db.vectors ++ [vec] }

/-- Allocate a node in the index and append it, pending, to the arrays. -/
def allocateNode (ext : ExternalId) (vec : Vec) : Outcome (VDB ι) InternalId :=
  match db.index.allocate K db.config.metric vec with
  | .error e index => .error e (db.withIndex index)
  | .ok iid index =>
    if iid ≠ db.intToExt.length then .error .assertionFailed (db.withIndex index)
    else
      let db := (db.withIndex index).pushNode ext vec true
      .ok iid { db with deletedCount := db.deletedCount + 1 }

/-- Keep `next_ext_id_` ahead of an id. -/
def keepAhead (ext : ExternalId) : VDB ι :=
  if db.nextExtId ≤ ext then { db with nextExtId := (ext + 1) % 2 ^ 64 } else db

/-- Make a pending node live. -/
def goLive (iid : InternalId) : Outcome (VDB ι) Unit :=
  let db := { db with
    deleted := db.deleted.set iid false, deletedCount := decrement db.deletedCount }
  (db.metadata.markLive iid).mapState db.withMetadata

/-- Make a live node a tombstone, but for the count of tombstones. -/
def goDead (iid : InternalId) : Outcome (VDB ι) Unit :=
  let db := { db with deleted := db.deleted.set iid true }
  (db.metadata.markDead iid).mapState db.withMetadata

def mapId (ext : ExternalId) (iid : Option InternalId) : VDB ι :=
  { db with extToInt := Function.update db.extToInt ext iid }

/-! ### Phases -/

/-- `reserve_id`. -/
def reserveId : ExternalId × VDB ι :=
  (db.nextExtId, { db with nextExtId := (db.nextExtId + 1) % 2 ^ 64 })

/-- Phase 1 of `insert_reserved`. -/
def insertAllocate (ext : ExternalId) (vec : Vec) (rec : Record) : Outcome (VDB ι) InternalId :=
  (db.allocateNode K ext vec).andThen fun iid db =>
    ((db.metadata.appendRow rec).mapState db.withMetadata).andThen fun _ db =>
      .ok iid (db.keepAhead ext)

/-- Phase 3 of `insert_reserved`. -/
def insertPublish (ext : ExternalId) (iid : InternalId) : Outcome (VDB ι) Unit :=
  (db.goLive iid).andThen fun _ db =>
    .ok () { db.mapId ext (some iid) with liveCount := db.liveCount + 1 }

/-- The metadata of a replacement node: a new row, or a copy of the old one. -/
def appendMetadata (old : InternalId) : Option Record → Outcome (MetadataStore ι) Unit
  | some rec => db.metadata.appendRow rec
  | none => .ok () (db.metadata.appendRowCopy old)

/-- Phase 1 of `update_`: the old and the new node, unless the id is unknown. -/
def updateAllocate (ext : ExternalId) (vec : Vec) (rec : Option Record) :
    Outcome (VDB ι) (Option (InternalId × InternalId)) :=
  match db.extToInt ext with
  | none => .ok none db
  | some old =>
    (db.allocateNode K ext vec).andThen fun iid db =>
      ((db.appendMetadata old rec).mapState db.withMetadata).andThen fun _ db =>
        .ok (some (old, iid)) db

/-- Phase 3 of `update_`. -/
def updatePublish (ext : ExternalId) (old iid : InternalId) : Outcome (VDB ι) Unit :=
  (db.goLive iid).andThen fun _ db =>
    (({ db with deletedCount := db.deletedCount + 1 }).goDead old).andThen fun _ db =>
      .ok () (db.mapId ext (some iid))

/-- Phase 2 of both, with no other call running. -/
def link (iid : InternalId) : VDB ι := db.withIndex (db.index.link K db.config.metric iid)

/-! ### Operations -/

def insertReserved (ext : ExternalId) (vec : Vec) (rec : Record) : Outcome (VDB ι) Unit :=
  match db.validate rec with
  | .error e => .error e db
  | .ok _ =>
    (db.insertAllocate K ext vec rec).andThen fun iid db => (db.link K iid).insertPublish ext iid

def insert (vec : Vec) (rec : Record) : Outcome (VDB ι) ExternalId :=
  match db.validate rec with
  | .error e => .error e db
  | .ok _ =>
    let (ext, db) := db.reserveId
    (db.insertReserved K ext vec rec).andThen fun _ db => .ok ext db

def remove (ext : ExternalId) : Outcome (VDB ι) Bool :=
  match db.extToInt ext with
  | none => .ok false db
  | some iid =>
    (db.goDead iid).andThen fun _ db =>
      .ok true { db.mapId ext none with
        liveCount := decrement db.liveCount, deletedCount := db.deletedCount + 1 }

/-- Check the record of an update, if it has one. -/
def validateUpdate : Option Record → Except Exn Unit
  | some rec => db.validate rec
  | none => .ok ()

/-- `update_`; no record carries the row over. -/
def update (ext : ExternalId) (vec : Vec) (rec : Option Record) : Outcome (VDB ι) Bool :=
  match db.validateUpdate rec with
  | .error e => .error e db
  | .ok _ =>
    (db.updateAllocate K ext vec rec).andThen fun nodes db =>
      match nodes with
      | none => .ok false db
      | some (old, iid) =>
        ((db.link K iid).updatePublish ext old iid).andThen fun _ db => .ok true db

def setMetadata (ext : ExternalId) (rec : Record) : Outcome (VDB ι) Bool :=
  match db.validate rec with
  | .error e => .error e db
  | .ok _ =>
    match db.extToInt ext with
    | none => .ok false db
    | some iid => ((db.metadata.setRow iid rec).mapState db.withMetadata).andThen fun _ db =>
        .ok true db

def contains (ext : ExternalId) : Bool := (db.extToInt ext).isSome

def getMetadata (ext : ExternalId) : Option Record := (db.extToInt ext).map db.metadata.getRow

def size : ℕ := db.liveCount

/-! ### Compaction -/

/-- The internal ids of the live rows, in order. -/
def liveIds : List InternalId :=
  (List.range db.intToExt.length).filter fun i => !db.deleted.getD i false

/-- `append_`: a fresh live node. -/
def append (ext : ExternalId) (vec : Vec) : Outcome (VDB ι) InternalId :=
  match db.index.add K db.config.metric vec with
  | .error e index => .error e (db.withIndex index)
  | .ok iid index =>
    if iid ≠ db.intToExt.length then .error .assertionFailed (db.withIndex index)
    else
      let db := (db.withIndex index).pushNode ext vec false
      .ok ((db.intToExt.length - 1) % 2 ^ 32) db

/-- The last loop of `compact`. -/
def appendAll : List (ExternalId × Vec) → VDB ι → Outcome (VDB ι) Unit
  | [], db => .ok () db
  | (ext, vec) :: rest, db =>
    (db.append K ext vec).andThen fun iid db => appendAll rest (db.mapId ext (some iid))

/-- The database without any rows, but for its metadata and its counters. -/
def clear : VDB ι :=
  { db with
    index := Index.make db.config, extToInt := fun _ => none, intToExt := [], deleted := []
    vectors := [], deletedCount := 0 }

def compact : Outcome (VDB ι) Unit :=
  let live := db.liveIds
  let rows := live.map fun i => (db.intToExt.getD i 0, db.vectors.getD i [])
  -- the vectors are moved out of their rows
  let moved := { db with
    vectors := db.vectors.mapIdx fun i v => if db.deleted.getD i false then v else [] }
  ((db.metadata.permute live).mapState moved.withMetadata).andThen fun _ db =>
    let db := db.clear
    let db := if db.config.kind = .ivf ∧ rows ≠ [] then
        db.withIndex (db.index.train K db.config.metric (rows.map Prod.snd)) else db
    appendAll K rows db

/-! ### Search -/

/-- `collect_` without a predicate. -/
def collect (query : Vec) (k : ℕ) : Except Exn (List (InternalId × δ)) :=
  match db.index.search K db.config.metric query
    (min ((k + db.deletedCount) % 2 ^ 64) db.index.size) with
  | .error e => .error e
  | .ok found => .ok ((found.filter fun e => !db.deleted.getD e.1 false).take k)

/-- `out.reserve(k)`, and what a search emits of the rows that are collected. -/
def report {α : Type} (bytes k : ℕ) (found : Except Exn (List (InternalId × δ)))
    (emit : InternalId × δ → α) : Except Exn (List α) := do
  reserve bytes k
  let found ← found
  pure (found.map emit)

def extOf (e : InternalId × δ) : ExternalId := db.intToExt.getD e.1 0

def hitOf (e : InternalId × δ) : Hit δ :=
  ⟨db.intToExt.getD e.1 0, e.2, db.metadata.payload.getD e.1 []⟩

def search (query : Vec) (k : ℕ) : Except Exn (List ExternalId) :=
  if k = 0 then .ok [] else report idBytes k (db.collect K query k) db.extOf

def searchHits (query : Vec) (k : ℕ) : Except Exn (List (Hit δ)) :=
  if k = 0 then .ok [] else report hitBytes k (db.collect K query k) db.hitOf

variable {K} {db} {α : Type} {k bytes : ℕ} {found : Except Exn (List (InternalId × δ))}
  {emit : InternalId × δ → α}

omit [Distance δ] in
theorem report_ok (hk : k ≤ maxSize bytes) :
    report bytes k found emit = found.map (List.map emit) := by
  unfold report reserve
  rw [if_neg (not_lt.2 hk)]
  cases found <;> rfl

omit [Distance δ] in
theorem report_full (hk : maxSize bytes < k) : report bytes k found emit = .error reserveError := by
  unfold report reserve
  rw [if_pos hk]
  rfl

end VDB

end Database

end Vdb
