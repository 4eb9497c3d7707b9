import Vdb.Database.Sequential
import Vdb.Wal.Replay

/-!
# The durable database

`DurableVDB`: a `VDB` with a write-ahead log in front of it.  A mutation runs in parts: a serial
prefix that logs it, under `PerOpSync` a wait until its record is on stable storage, its application
to the database, and the end of its accounting.

* `next_lsn_` counts the records of a process and cannot overflow.
* An `Env` says which of the system calls of a step fail, and what the clock says.
-/

namespace Vdb

namespace Durable

open Metadata Database

inductive Policy where
  /-- A write is durable before it is applied. -/
  | perOpSync
  /-- A write is applied first. -/
  | periodic
  deriving DecidableEq

structure Options where
  policy : Policy := .periodic
  /-- Mutations between automatic checkpoints. -/
  checkpointOps : ℕ := 10000
  segmentMaxBytes : ℕ := 16 * 1024 * 1024

/-- What a record of the log says was done. -/
inductive Mutation where
  | insert (ext : ExternalId) (vec : Vec) (rec : Record)
  | remove (ext : ExternalId)
  | update (ext : ExternalId) (vec : Vec) (rec : Record)
  | setMetadata (ext : ExternalId) (rec : Record)
  deriving DecidableEq

namespace Mutation

/-- The id it is on. -/
def ext : Mutation → ExternalId
  | insert ext _ _ => ext
  | remove ext => ext
  | update ext _ _ => ext
  | setMetadata ext _ => ext

/-- Its record in the log. -/
def toRecord (lsn : ℕ) : Mutation → WalRecord
  | insert ext vec rec => { type := .insert, lsn, extId := ext, vec, metadata := rec }
  | remove ext => { type := .delete, lsn, extId := ext }
  | update ext vec rec => { type := .update, lsn, extId := ext, vec, metadata := rec }
  | setMetadata ext rec => { type := .setMeta, lsn, extId := ext, metadata := rec }

@[simp] theorem lsn_toRecord (m : Mutation) (lsn : ℕ) : (m.toRecord lsn).lsn = lsn := by
  cases m <;> rfl

@[simp] theorem extId_toRecord (m : Mutation) (lsn : ℕ) : (m.toRecord lsn).extId = m.ext := by
  cases m <;> rfl

end Mutation

/-- A call of a mutator. -/
inductive Request where
  | insert (vec : Vec) (rec : Record)
  | remove (ext : ExternalId)
  | update (ext : ExternalId) (vec : Vec) (rec : Option Record)
  | setMetadata (ext : ExternalId) (rec : Record)
  deriving DecidableEq

/-- The id a call looks up before its prefix. -/
def Request.looksUp : Request → Option ExternalId
  | .insert _ _ => none
  | .remove ext => some ext
  | .update ext _ _ => some ext
  | .setMetadata ext _ => some ext

/-- What an insert reserves. -/
def Request.reserved {ι : Type} (db : VDB ι) : Request → VDB ι
  | .insert _ _ => db.reserveId.2
  | _ => db

/-- The mutation of a request, unless its row has gone. -/
def Request.mutation {ι : Type} [ColumnIndex ι] (db : VDB ι) : Request → Option Mutation
  | .insert vec rec => some (.insert db.nextExtId vec rec)
  | .remove ext => some (.remove ext)
  | .update ext vec rec => (rec.or (db.getMetadata ext)).map (.update ext vec)
  | .setMetadata ext rec => some (.setMetadata ext rec)

/-- A mutation behind its prefix. -/
structure Job where
  mutation : Mutation
  lsn : ℕ
  /-- It owns a checkpoint. -/
  doCkpt : Bool
  deriving DecidableEq

/-- A `save_snapshot` that throws, and whether it has replaced the file before. -/
structure SaveFault where
  error : Exn
  replaced : Bool
  deriving DecidableEq

/-- What happens to a step from outside.  Only the calls named here can fail: `dup`, `close`,
`unlink`, those that create a segment and the `fsync` of a directory succeed.  What an `fsync` that
fails has not written is still in the file for the next one. -/
structure Env where
  /-- The `pwrite` of an append fails. -/
  pwrite : Option Fault := none
  /-- The `fsync` of a rotation or of `wal_.sync()` fails, with this `errno`. -/
  fsync : Option Bytes := none
  save : Option SaveFault := none
  /-- The flush interval is over. -/
  elapsed : Bool := true
  deriving DecidableEq

structure DurableVDB (ι : Type) where
  config : VDBConfig
  opts : Options
  db : VDB ι
  wal : Wal
  /-- The file at `snapshot_path_`. -/
  snapshot : Option Bytes := none
  nextLsn : ℕ := 1
  snapshotId : ℕ := 0
  opsSinceCheckpoint : ℕ := 0
  durableLsn : ℕ := 0
  syncing : Bool := false
  inFlight : ℕ := 0

namespace DurableVDB

variable {ι δ : Type} [ColumnIndex ι] [Distance δ] (K : Kernels δ) (d : DurableVDB ι)

def withDb (db : VDB ι) : DurableVDB ι := { d with db }

def withWal (wal : Wal) : DurableVDB ι := { d with wal }

/-! ### The log -/

/-- `wal_.append`; an append that rotates has an `fsync` too. -/
def append (r : WalRecord) (env : Env) : Outcome (DurableVDB ι) Unit :=
  match env.fsync with
  | some errno =>
    if d.wal.activeFd.isSome ∧ walHeaderSize < d.wal.activeBytes ∧
        d.wal.segMax < d.wal.activeBytes + (encodeRecord r).length then
      .error (sysError (ascii "fsync before rotate") errno) d
    else (d.wal.append r env.pwrite).mapState d.withWal
  | none => (d.wal.append r env.pwrite).mapState d.withWal

/-- The part of every serial prefix from the lsn on. -/
def log (m : Mutation) (env : Env) : Outcome (DurableVDB ι) Job :=
  let lsn := d.nextLsn
  let d := { d with nextLsn := d.nextLsn + 1 }
  (d.append (m.toRecord lsn) env).andThen fun _ d =>
    let d := { d with inFlight := d.inFlight + 1 }
    if d.opts.checkpointOps ≤ d.opsSinceCheckpoint + 1 then
      .ok ⟨m, lsn, true⟩ { d with opsSinceCheckpoint := 0 }
    else .ok ⟨m, lsn, false⟩ { d with opsSinceCheckpoint := d.opsSinceCheckpoint + 1 }

/-- The serial prefix of a mutator, which runs under `write_mutex_`; an update of a row that has
gone meanwhile ends in it. -/
def serialPrefix (req : Request) (env : Env) : Outcome (DurableVDB ι) (Option Job) :=
  match req with
  | .insert vec rec =>
    let (ext, db) := d.db.reserveId
    ((d.withDb db).log (.insert ext vec rec) env).andThen fun job d => .ok (some job) d
  | .remove ext => (d.log (.remove ext) env).andThen fun job d => .ok (some job) d
  | .update ext vec rec =>
    match rec.or (d.db.getMetadata ext) with
    | none => .ok none d
    | some effective =>
      (d.log (.update ext vec effective) env).andThen fun job d => .ok (some job) d
  | .setMetadata ext rec => (d.log (.setMetadata ext rec) env).andThen fun job d => .ok (some job) d

/-! ### The application -/

/-- The application of a mutation up to the phases of an insert or an update. -/
def applyStart (m : Mutation) : Outcome (DurableVDB ι) (Option (Call δ)) :=
  match m with
  | .insert _ vec rec =>
    match d.db.validate rec with
    | .error e => .error e d
    | .ok _ => .ok (some (.inserting vec rec)) d
  | .remove ext => ((d.db.remove ext).mapState d.withDb).andThen fun _ d => .ok none d
  | .update _ vec rec =>
    match d.db.validateUpdate (some rec) with
    | .error e => .error e d
    | .ok _ => .ok (some (.updating vec (some rec))) d
  | .setMetadata ext rec =>
    ((d.db.setMetadata ext rec).mapState d.withDb).andThen fun _ d => .ok none d

/-- The next phase of an insert or an update on `ext`, or the next section of its link. -/
def applyNext (ext : ExternalId) (call : Call δ) : Outcome (DurableVDB ι) (Option (Call δ)) :=
  match call with
  | .inserting vec rec =>
    ((d.db.insertAllocate K ext vec rec).mapState d.withDb).andThen fun iid d =>
      .ok (some (.insertLinking vec rec iid .start)) d
  | .insertLinking _ _ iid .done =>
    ((d.db.insertPublish ext iid).mapState d.withDb).andThen fun _ d => .ok none d
  | .insertLinking vec rec iid pc =>
    let (index, pc) := d.db.index.linkSection K d.db.config.metric iid pc
    .ok (some (.insertLinking vec rec iid pc)) (d.withDb (d.db.withIndex index))
  | .updating vec rec =>
    ((d.db.updateAllocate K ext vec rec).mapState d.withDb).andThen fun nodes d =>
      .ok (nodes.map fun (old, iid) => .updateLinking vec rec old iid .start) d
  | .updateLinking _ _ old iid .done =>
    ((d.db.updatePublish ext old iid).mapState d.withDb).andThen fun _ d => .ok none d
  | .updateLinking vec rec old iid pc =>
    let (index, pc) := d.db.index.linkSection K d.db.config.metric iid pc
    .ok (some (.updateLinking vec rec old iid pc)) (d.withDb (d.db.withIndex index))

/-- `finish_op_`. -/
def finishOp : DurableVDB ι := { d with inFlight := d.inFlight - 1 }

/-! ### Durability -/

/-- Credit an `fsync` with what it covers. -/
def credit (synced : ℕ) : DurableVDB ι :=
  { d with durableLsn := if d.durableLsn < synced then synced else d.durableLsn }

/-- `wal_.sync()` up to its `fsync`: the file, and the highest lsn. -/
def syncCapture : Outcome (DurableVDB ι) (Bytes × ℕ) :=
  match d.wal.syncCapture with
  | none => .error (sysError (ascii "WAL not open") (ascii "Success")) d
  | some captured => .ok captured d

/-- The `fsync` of the captured file. -/
def syncFile (name : Bytes) (env : Env) : Outcome (DurableVDB ι) Unit :=
  match env.fsync with
  | some errno => .error (sysError (ascii "fsync WAL") errno) d
  | none => .ok () (d.withWal (d.wal.syncFile name))

/-! ### Checkpoints -/

/-- Save the snapshot; gives its lsn. -/
def saveSnapshot (env : Env) : Outcome (DurableVDB ι) ℕ :=
  let lsn := d.nextLsn - 1
  let saved := { d with snapshot := some (d.db.save lsn) }
  match env.save with
  | none => .ok lsn saved
  | some fault => .error fault.error (if fault.replaced then saved else d)

/-- Append the record of a checkpoint. -/
def logCheckpoint (env : Env) : Outcome (DurableVDB ι) Unit :=
  let r : WalRecord := { type := .checkpoint, lsn := d.nextLsn, extId := d.snapshotId }
  ({ d with nextLsn := d.nextLsn + 1, snapshotId := d.snapshotId + 1 }).append r env

def truncate (upto : ℕ) : Outcome (DurableVDB ι) Unit := (d.wal.truncate upto).mapState d.withWal

/-! ### Recovery -/

/-- `apply_`. -/
def applyRecord (r : WalRecord) (db : VDB ι) : Outcome (VDB ι) Unit :=
  match r.type with
  | .insert => db.insertReserved K r.extId r.vec r.metadata
  | .update => (db.update K r.extId r.vec (some r.metadata)).andThen fun _ db => .ok () db
  | .setMeta => (db.setMetadata r.extId r.metadata).andThen fun _ db => .ok () db
  | .delete => (db.remove r.extId).andThen fun _ db => .ok () db
  | _ => .ok () db

/-- `load_snapshot`, if there is one: its lsn. -/
def loadSnapshot : Outcome (DurableVDB ι) ℕ :=
  match d.snapshot with
  | none => .ok 0 d
  | some bytes =>
    match d.db.load bytes with
    | .error e => .error e d
    | .ok ((lsn, db), _) => .ok lsn (d.withDb db)

/-- What the log is opened with. -/
def opener : Opener where
  dim := UInt32.ofNat d.config.dim
  metric := UInt8.ofNat d.config.metric.toByte
  schemaFp := d.db.metadata.fingerprint

/-- What `recover_` does with a record: those of the snapshot are skipped. -/
def replayRecord (snapshotLsn : ℕ) (r : WalRecord) (db : VDB ι) : Outcome (VDB ι) Unit :=
  if snapshotLsn < r.lsn then applyRecord K r db else .ok () db

/-- `recover_`, from the snapshot and the files of the log. -/
def recover (files : Dir) (walDir : Bytes) : Outcome (DurableVDB ι) Unit :=
  d.loadSnapshot.andThen fun snapshotLsn d =>
    ((Wal.reopen (replayRecord K snapshotLsn) files walDir d.opener d.opts.segmentMaxBytes
      d.db).mapState fun s => { d with wal := s.1, db := s.2 }).andThen fun _ d =>
        let nextLsn := max snapshotLsn d.wal.highestLsn + 1
        .ok () { d with nextLsn, durableLsn := nextLsn - 1 }

/-! ### What a part leaves -/

variable {K d} {d' : DurableVDB ι} {r : WalRecord} {m : Mutation} {env : Env} {job : Job} {e : Exn}
  {req : Request} {ext : ExternalId}

omit [ColumnIndex ι] in
theorem append_ok (h : d.append r env = .ok () d') :
    ∃ wal, d.wal.append r env.pwrite = .ok () wal ∧ d' = d.withWal wal := by
  unfold append at h
  split at h
  · split at h
    · cases h
    · exact Outcome.mapState_ok h
  · exact Outcome.mapState_ok h

omit [ColumnIndex ι] in
theorem append_error (h : d.append r env = .error e d') :
    d' = d ∨ ∃ wal, d.wal.append r env.pwrite = .error e wal ∧ d' = d.withWal wal := by
  unfold append at h
  split at h
  · split at h
    · cases h
      exact .inl rfl
    · exact .inr (Outcome.mapState_error h)
  · exact .inr (Outcome.mapState_error h)

omit [ColumnIndex ι] in
/-- The part of a prefix from the lsn on logs the record under the next lsn, and counts the call. -/
theorem log_ok (h : d.log m env = .ok job d') :
    ∃ wal ops, d.wal.append (m.toRecord d.nextLsn) env.pwrite = .ok () wal ∧ job.mutation = m ∧
      job.lsn = d.nextLsn ∧ d' = { d with
        wal, nextLsn := d.nextLsn + 1, inFlight := d.inFlight + 1, opsSinceCheckpoint := ops } := by
  obtain ⟨_, d₁, happ, h⟩ := Outcome.andThen_ok h
  obtain ⟨wal, hwal, rfl⟩ := append_ok happ
  dsimp only at h
  split at h
  · cases h
    exact ⟨wal, 0, hwal, rfl, rfl, rfl⟩
  · cases h
    exact ⟨wal, d.opsSinceCheckpoint + 1, hwal, rfl, rfl, rfl⟩

omit [ColumnIndex ι] in
theorem log_error (h : d.log m env = .error e d') :
    ∃ wal, (wal = d.wal ∨ d.wal.append (m.toRecord d.nextLsn) env.pwrite = .error e wal) ∧
      d' = { d with wal, nextLsn := d.nextLsn + 1 } := by
  rcases Outcome.andThen_error h with happ | ⟨_, d₁, -, h⟩
  · rcases append_error happ with rfl | ⟨wal, hwal, rfl⟩
    · exact ⟨d.wal, .inl rfl, rfl⟩
    · exact ⟨wal, .inr hwal, rfl⟩
  · dsimp only at h
    split at h <;> cases h

theorem serialPrefix_eq (req : Request) (env : Env) :
    d.serialPrefix req env = match req.mutation d.db with
      | none => .ok none d
      | some m => ((d.withDb (req.reserved d.db)).log m env).andThen fun job d =>
          .ok (some job) d := by
  cases req with
  | update ext vec rec =>
    dsimp only [serialPrefix, Request.mutation]
    cases rec.or (d.db.getMetadata ext) <;> rfl
  | _ => rfl

/-- A prefix that returns has logged the mutation of the request, unless there is none. -/
theorem serialPrefix_ok {found : Option Job} (h : d.serialPrefix req env = .ok found d') :
    (found = none ∧ req.mutation d.db = none ∧ d' = d) ∨
      ∃ job wal ops, found = some job ∧ req.mutation d.db = some job.mutation ∧
      job.lsn = d.nextLsn ∧
        d.wal.append (job.mutation.toRecord job.lsn) env.pwrite = .ok () wal ∧ d' = { d with
          db := req.reserved d.db, wal, nextLsn := d.nextLsn + 1, inFlight := d.inFlight + 1
          opsSinceCheckpoint := ops } := by
  rw [serialPrefix_eq] at h
  cases hm : req.mutation d.db with
  | none =>
    rw [hm] at h
    cases h
    exact .inl ⟨rfl, rfl, rfl⟩
  | some m =>
    rw [hm] at h
    obtain ⟨job, d₁, hlog, h⟩ := Outcome.andThen_ok h
    obtain ⟨wal, ops, hwal, rfl, hlsn, rfl⟩ := log_ok hlog
    cases h
    refine .inr ⟨job, wal, ops, rfl, rfl, hlsn, ?_, rfl⟩
    rw [hlsn]
    exact hwal

theorem serialPrefix_error (h : d.serialPrefix req env = .error e d') :
    ∃ m wal, req.mutation d.db = some m ∧
      (wal = d.wal ∨ d.wal.append (m.toRecord d.nextLsn) env.pwrite = .error e wal) ∧
      d' = { d with db := req.reserved d.db, wal, nextLsn := d.nextLsn + 1 } := by
  rw [serialPrefix_eq] at h
  cases hm : req.mutation d.db with
  | none =>
    rw [hm] at h
    cases h
  | some m =>
    rw [hm] at h
    rcases Outcome.andThen_error h with hlog | ⟨job, d₁, -, h⟩
    · obtain ⟨wal, hwal, rfl⟩ := log_error hlog
      exact ⟨m, wal, rfl, hwal, rfl⟩
    · cases h

omit [Distance δ] in
/-- An application changes the database only. -/
theorem applyStart_state : ∃ db, (d.applyStart (δ := δ) m).state = d.withDb db := by
  cases m with
  | insert ext vec rec =>
    dsimp only [applyStart]
    split <;> exact ⟨d.db, rfl⟩
  | remove ext =>
    dsimp only [applyStart]
    cases d.db.remove ext <;> exact ⟨_, rfl⟩
  | update ext vec rec =>
    dsimp only [applyStart]
    split <;> exact ⟨d.db, rfl⟩
  | setMetadata ext rec =>
    dsimp only [applyStart]
    cases d.db.setMetadata ext rec <;> exact ⟨_, rfl⟩

theorem applyNext_state {call : Call δ} : ∃ db, (d.applyNext K ext call).state = d.withDb db := by
  unfold applyNext
  split
  · cases d.db.insertAllocate K ext _ _ <;> exact ⟨_, rfl⟩
  · cases d.db.insertPublish ext _ <;> exact ⟨_, rfl⟩
  · exact ⟨_, rfl⟩
  · cases d.db.updateAllocate K ext _ _ <;> exact ⟨_, rfl⟩
  · cases d.db.updatePublish ext _ _ <;> exact ⟨_, rfl⟩
  · exact ⟨_, rfl⟩

end DurableVDB

/-- The constructor, on the files an earlier process has left. -/
def DurableVDB.open {ι δ : Type} [ColumnIndex ι] [Distance δ] (K : Kernels δ) (config : VDBConfig)
    (opts : Options) (walDir : Bytes) (files : Dir) (snapshot : Option Bytes) :
    Except Exn (DurableVDB ι) :=
  match VDB.new config with
  | .error e => .error e
  | .ok db =>
    let d : DurableVDB ι :=
      { config, opts, db, snapshot, wal := { dir := walDir, opener := ⟨0, 0, 0⟩ } }
    match d.recover K files walDir with
    | .error e _ => .error e
    | .ok _ d => .ok d

namespace DurableVDB

variable {ι δ : Type} [ColumnIndex ι] [Distance δ] {K : Kernels δ} {d d' : DurableVDB ι}
  {config : VDBConfig} {opts : Options} {walDir : Bytes} {files : Dir} {snapshot : Option Bytes}

theorem loadSnapshot_ok {lsn : ℕ} (h : d.loadSnapshot = .ok lsn d') : ∃ db, d' = d.withDb db := by
  unfold loadSnapshot at h
  split at h
  · cases h
    exact ⟨d.db, rfl⟩
  · split at h
    · cases h
    · cases h
      exact ⟨_, rfl⟩

/-- After the constructor nothing is in flight. -/
theorem open_idle (h : DurableVDB.open K config opts walDir files snapshot = .ok d) :
    d.inFlight = 0 ∧ d.syncing = false := by
  unfold DurableVDB.open at h
  split at h
  · cases h
  · dsimp only at h
    split at h
    · cases h
    · rename_i hrec
      cases h
      obtain ⟨lsn, d₁, hload, hrec⟩ := Outcome.andThen_ok hrec
      obtain ⟨db, rfl⟩ := loadSnapshot_ok hload
      obtain ⟨_, d₂, hreplay, hrec⟩ := Outcome.andThen_ok hrec
      obtain ⟨s, -, rfl⟩ := Outcome.mapState_ok hreplay
      cases hrec
      exact ⟨rfl, rfl⟩

end DurableVDB

end Durable

end Vdb
