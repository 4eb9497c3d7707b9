import Vdb.Durable.Basic
import Vdb.Lib.Run

/-!
# Concurrent calls of a durable database

A `System` is a durable database with the calls started on it; an `Action` starts a call or runs its
next section.  A serial prefix is one section, under `write_mutex_`; each turn of `group_commit_` is
one, under `commit_mutex_`; `wal_.sync()` captures the file under the lock of the log and does its
`fsync` without a lock; the phases of the database are its own.  A checkpoint keeps `write_mutex_`
over all its sections.
-/

namespace Vdb

namespace Durable

open Metadata Database

/-- On whose behalf a call is in `wal_.sync()`. -/
inductive Purpose where
  /-- It leads a group commit. -/
  | groupCommit (job : Job)
  | flush (job : Job)
  | checkpoint (reply : Reply) (lsn : ℕ)
  | sync
  deriving DecidableEq

/-- Where a call is.  A checkpoint may be the last part of a mutator, and has its reply. -/
inductive Pc (δ : Type) where
  /-- It is to look its id up. -/
  | lookUp (req : Request) (ext : ExternalId)
  /-- It waits for `write_mutex_` to run its prefix. -/
  | serialPrefix (req : Request)
  /-- It is at the head of the loop of `group_commit_`. -/
  | commit (job : Job)
  /-- It enters `wal_.sync()`. -/
  | capture (p : Purpose)
  /-- It has captured a file. -/
  | fsync (p : Purpose) (name : Bytes) (target : ℕ)
  /-- It returns from `wal_.sync()`. -/
  | synced (p : Purpose) (target : ℕ)
  /-- It is to apply its mutation. -/
  | apply (job : Job)
  /-- The database works on its mutation. -/
  | applying (job : Job) (call : Call δ)
  /-- It is to see whether a flush is due. -/
  | maybeFlush (job : Job)
  | finish (job : Job)
  /-- It waits for `write_mutex_` to run a checkpoint. -/
  | checkpoint (reply : Reply)
  /-- It waits for the calls in flight. -/
  | drain (reply : Reply)
  | save (reply : Reply)
  | logCheckpoint (reply : Reply) (lsn : ℕ)
  | truncate (reply : Reply) (lsn : ℕ)
  | creditCheckpoint (reply : Reply) (lsn : ℕ)
  | returned (reply : Reply)
  | threw (e : Exn)

/-- Where a mutator starts. -/
def Request.start {δ : Type} (req : Request) : Pc δ :=
  req.looksUp.elim (.serialPrefix req) (.lookUp req)

/-- What a mutator returns. -/
def Mutation.reply : Mutation → Reply
  | .insert ext _ _ => .id ext
  | _ => .found true

namespace Pc

variable {δ : Type}

/-- The call has not ended. -/
def InProgress : Pc δ → Prop
  | returned _ => False
  | threw _ => False
  | _ => True

/-- The job of a mutator that has logged its record and not finished. -/
def job : Pc δ → Option Job
  | commit job => some job
  | capture (.groupCommit job) => some job
  | capture (.flush job) => some job
  | fsync (.groupCommit job) _ _ => some job
  | fsync (.flush job) _ _ => some job
  | synced (.groupCommit job) _ => some job
  | synced (.flush job) _ => some job
  | apply job => some job
  | applying job _ => some job
  | maybeFlush job => some job
  | finish job => some job
  | _ => none

/-- The call holds `write_mutex_`. -/
def Writes : Pc δ → Prop
  | drain _ => True
  | save _ => True
  | logCheckpoint _ _ => True
  | capture (.checkpoint _ _) => True
  | fsync (.checkpoint _ _) _ _ => True
  | synced (.checkpoint _ _) _ => True
  | truncate _ _ => True
  | creditCheckpoint _ _ => True
  | _ => False

/-- The call is in `wal_.sync()` for `group_commit_` or `maybe_flush_`, up to where it takes
`commit_mutex_` again. -/
def Syncs : Pc δ → Prop
  | capture (.groupCommit _) => True
  | capture (.flush _) => True
  | fsync (.groupCommit _) _ _ => True
  | fsync (.flush _) _ _ => True
  | synced (.groupCommit _) _ => True
  | synced (.flush _) _ => True
  | _ => False

instance : DecidablePred (InProgress (δ := δ)) := fun pc => by
  unfold InProgress
  split <;> infer_instance

instance : DecidablePred (Writes (δ := δ)) := fun pc => by
  unfold Writes
  split <;> infer_instance

instance : DecidablePred (Syncs (δ := δ)) := fun pc => by
  unfold Syncs
  split <;> infer_instance

end Pc

inductive Action where
  | invoke (req : Request)
  | checkpoint
  | sync
  /-- The `i`-th call runs its next section. -/
  | run (i : ℕ) (env : Env)
  deriving DecidableEq

namespace DurableVDB

variable {ι δ : Type} [ColumnIndex ι] [Distance δ] (K : Kernels δ) (d : DurableVDB ι)

/-- Where a mutator goes behind its prefix. -/
def behindPrefix (job : Job) : Pc δ :=
  match d.opts.policy with
  | .perOpSync => .commit job
  | .periodic => .apply job

/-- Where a mutator goes when it has been applied. -/
def behindApply (job : Job) : Pc δ :=
  match d.opts.policy with
  | .perOpSync => .finish job
  | .periodic => .maybeFlush job

/-- A turn of `group_commit_`: on to the application once the record is durable; else the call
becomes the leader, or waits. -/
def commitTurn (job : Job) : Outcome (DurableVDB ι) (Pc δ) :=
  if job.lsn ≤ d.durableLsn then .ok (.apply job) d
  else if d.syncing then .ok (.commit job) d
  else .ok (.capture (.groupCommit job)) { d with syncing := true }

/-- The leader or a flush credits its `fsync`. -/
def endSync (target : ℕ) : DurableVDB ι := { d.credit target with syncing := false }

/-- The next section of a call at `pc`: where the call is after it, or what it throws.  A call that
waits stays where it is; `writing` says that another one holds `write_mutex_`. -/
def runSection (writing : Bool) (pc : Pc δ) (env : Env) : Outcome (DurableVDB ι) (Pc δ) :=
  match pc with
  | .lookUp req ext =>
    .ok (if d.db.contains ext then .serialPrefix req else .returned (.found false)) d
  | .serialPrefix req =>
    if writing then .ok pc d
    else (d.serialPrefix req env).andThen fun job d =>
      .ok (job.elim (.returned (.found false)) d.behindPrefix) d
  | .commit job => d.commitTurn job
  | .capture p => d.syncCapture.andThen fun captured d => .ok (.fsync p captured.1 captured.2) d
  | .fsync p name target => (d.syncFile name env).andThen fun _ d => .ok (.synced p target) d
  | .synced (.groupCommit job) target => (d.endSync target).commitTurn job
  | .synced (.flush job) target => .ok (.finish job) (d.endSync target)
  | .synced (.checkpoint reply lsn) _ => .ok (.truncate reply lsn) d
  | .synced .sync target => .ok (.returned .done) (d.credit target)
  | .apply job =>
    (d.applyStart job.mutation).andThen fun call d =>
      .ok (call.elim (d.behindApply job) (.applying job)) d
  | .applying job call =>
    (d.applyNext K job.mutation.ext call).andThen fun call d =>
      .ok (call.elim (d.behindApply job) (.applying job)) d
  | .maybeFlush job =>
    if d.syncing ∨ ¬ env.elapsed then .ok (.finish job) d
    else .ok (.capture (.flush job)) { d with syncing := true }
  | .finish job =>
    .ok (if job.doCkpt then .checkpoint job.mutation.reply else .returned job.mutation.reply)
      d.finishOp
  | .checkpoint reply => .ok (if writing then .checkpoint reply else .drain reply) d
  | .drain reply => .ok (if d.inFlight = 0 then .save reply else .drain reply) d
  | .save reply => (d.saveSnapshot env).andThen fun lsn d => .ok (.logCheckpoint reply lsn) d
  | .logCheckpoint reply lsn =>
    (d.logCheckpoint env).andThen fun _ d => .ok (.capture (.checkpoint reply lsn)) d
  | .truncate reply lsn => (d.truncate lsn).andThen fun _ d => .ok (.creditCheckpoint reply lsn) d
  | .creditCheckpoint reply lsn => .ok (.returned reply) (d.credit lsn)
  | .returned reply => .ok (.returned reply) d
  | .threw e => .ok (.threw e) d

end DurableVDB

/-- A durable database and the calls started on it, in the order of their start. -/
structure System (ι δ : Type) where
  durable : DurableVDB ι
  calls : List (Pc δ) := []

namespace System

variable {ι δ : Type} [ColumnIndex ι] [Distance δ] (K : Kernels δ) (s : System ι δ)

/-- Some call holds `write_mutex_`. -/
def writing : Bool := s.calls.any fun pc => pc.Writes

/-- The next section of the `i`-th call. -/
def runCall (i : ℕ) (env : Env) (pc : Pc δ) : System ι δ :=
  match s.durable.runSection K s.writing pc env with
  | .ok pc durable => { durable, calls := s.calls.set i pc }
  | .error e durable => { durable, calls := s.calls.set i (.threw e) }

def act : Action → System ι δ
  | .invoke req => { s with calls := s.calls ++ [req.start] }
  | .checkpoint => { s with calls := s.calls ++ [.checkpoint .done] }
  | .sync => { s with calls := s.calls ++ [.capture .sync] }
  | .run i env =>
    match s.calls[i]? with
    | none => s
    | some pc => s.runCall K i env pc

end System

end Durable

end Vdb
