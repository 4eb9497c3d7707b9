import Vdb.Durable.Concurrent

/-!
# What a section can do

`DurableVDB.Moves d w env pc pc' d'` lists the sections of a call: from `pc` on the database `d` to
`pc'` and `d'`, with every guard that lets it go there.  The invariants of a durable database are
proved from this list, and never unfold a section.

* `System.act_acts` : an action starts a call, does nothing, or runs one section.
* `DurableVDB.moves_of_ok`, `DurableVDB.throws_of_error` : a section is one of the list.
-/

namespace Vdb

namespace Durable

open Metadata Database

namespace DurableVDB

variable {ι δ : Type} [ColumnIndex ι] [Distance δ] (K : Kernels δ) (d : DurableVDB ι)

/-- The record of the next checkpoint. -/
def checkpointRecord : WalRecord := { type := .checkpoint, lsn := d.nextLsn, extId := d.snapshotId }

/-- The record that the next section of a call at `pc` appends to the log. -/
def logged (w : Bool) (pc : Pc δ) (env : Env) : Option WalRecord :=
  match pc with
  | .serialPrefix req =>
    if w then none
    else
      match d.serialPrefix req env with
      | .ok (some job) _ => some (job.mutation.toRecord job.lsn)
      | _ => none
  | .logCheckpoint _ _ =>
    match d.logCheckpoint env with
    | .ok _ _ => some d.checkpointRecord
    | .error _ _ => none
  | _ => none

/-- A section that returns: the places it is between, the database behind it, and the record it
appends. -/
inductive Moves (w : Bool) (env : Env) : Pc δ → Pc δ → DurableVDB ι → Option WalRecord → Prop
  | stays (pc) : Moves w env pc pc d none
  | found (req ext) : d.db.contains ext = true →
    Moves w env (.lookUp req ext) (.serialPrefix req) d none
  | absent (req ext) : d.db.contains ext = false →
    Moves w env (.lookUp req ext) (.returned (.found false)) d none
  | gone (req) : w = false → req.mutation d.db = none →
    Moves w env (.serialPrefix req) (.returned (.found false)) d none
  | logs (req) (job : Job) (wal ops) : w = false → req.mutation d.db = some job.mutation →
    job.lsn = d.nextLsn → d.wal.append (job.mutation.toRecord job.lsn) env.pwrite = .ok () wal →
    Moves w env (.serialPrefix req) (d.behindPrefix job) { d with
      db := req.reserved d.db, wal, nextLsn := d.nextLsn + 1, inFlight := d.inFlight + 1
      opsSinceCheckpoint := ops } (some (job.mutation.toRecord job.lsn))
  | commits (job : Job) : job.lsn ≤ d.durableLsn → Moves w env (.commit job) (.apply job) d none
  | leads (job : Job) : d.durableLsn < job.lsn → d.syncing = false →
    Moves w env (.commit job) (.capture (.groupCommit job)) { d with syncing := true } none
  | captures (p name) : d.wal.activeFd = some name →
    Moves w env (.capture p) (.fsync p name d.wal.highestLsn) d none
  | syncs (p name target) : env.fsync = none →
    Moves w env (.fsync p name target) (.synced p target) (d.withWal (d.wal.syncFile name)) none
  | commitSynced (job : Job) (target) : job.lsn ≤ (d.endSync target).durableLsn →
    Moves w env (.synced (.groupCommit job) target) (.apply job) (d.endSync target) none
  | leadsAgain (job : Job) (target) : (d.endSync target).durableLsn < job.lsn →
    Moves w env (.synced (.groupCommit job) target) (.capture (.groupCommit job))
      { d.endSync target with syncing := true } none
  | flushed (job : Job) (target) :
    Moves w env (.synced (.flush job) target) (.finish job) (d.endSync target) none
  | checkpointSynced (reply lsn target) :
    Moves w env (.synced (.checkpoint reply lsn) target) (.truncate reply lsn) d none
  | synced (target) : Moves w env (.synced .sync target) (.returned .done) (d.credit target) none
  | applies (job : Job) (call : Option (Call δ)) (db) :
    d.applyStart job.mutation = .ok call (d.withDb db) →
    Moves w env (.apply job) (call.elim (d.behindApply job) (.applying job)) (d.withDb db) none
  | continues (job : Job) (call : Call δ) (next : Option (Call δ)) (db) :
    d.applyNext K job.mutation.ext call = .ok next (d.withDb db) →
    Moves w env (.applying job call) (next.elim (d.behindApply job) (.applying job))
      (d.withDb db) none
  | skipsFlush (job : Job) : Moves w env (.maybeFlush job) (.finish job) d none
  | flushes (job : Job) : d.syncing = false →
    Moves w env (.maybeFlush job) (.capture (.flush job)) { d with syncing := true } none
  | finishes (job : Job) : Moves w env (.finish job)
      (if job.doCkpt then .checkpoint job.mutation.reply
        else .returned job.mutation.reply) d.finishOp none
  | enters (reply) : w = false → Moves w env (.checkpoint reply) (.drain reply) d none
  | drained (reply) : d.inFlight = 0 → Moves w env (.drain reply) (.save reply) d none
  | saves (reply) : Moves w env (.save reply) (.logCheckpoint reply (d.nextLsn - 1))
      { d with snapshot := some (d.db.save (d.nextLsn - 1)) } none
  | logsCheckpoint (reply lsn wal) :
    d.wal.append d.checkpointRecord env.pwrite = .ok () wal →
    Moves w env (.logCheckpoint reply lsn) (.capture (.checkpoint reply lsn)) { d with
      wal, nextLsn := d.nextLsn + 1, snapshotId := d.snapshotId + 1 } (some d.checkpointRecord)
  | truncates (reply lsn wal) : d.wal.truncate lsn = .ok () wal →
    Moves w env (.truncate reply lsn) (.creditCheckpoint reply lsn) (d.withWal wal) none
  | credits (reply lsn) : Moves w env (.creditCheckpoint reply lsn) (.returned reply)
      (d.credit lsn) none

/-- A section of a call at `pc` that throws, and what it leaves. -/
inductive Throws (w : Bool) (env : Env) : Pc δ → Exn → DurableVDB ι → Prop
  | log (req e) (m : Mutation) (wal) : w = false → req.mutation d.db = some m →
    (wal = d.wal ∨ d.wal.append (m.toRecord d.nextLsn) env.pwrite = .error e wal) →
    Throws w env (.serialPrefix req) e { d with
      db := req.reserved d.db, wal, nextLsn := d.nextLsn + 1 }
  | capture (p e) : d.wal.activeFd = none → Throws w env (.capture p) e d
  | sync (p name target e) : env.fsync ≠ none → Throws w env (.fsync p name target) e d
  | apply (job : Job) (e db) : d.applyStart (δ := δ) job.mutation = .error e (d.withDb db) →
    Throws w env (.apply job) e (d.withDb db)
  | next (job : Job) (call : Call δ) (e db) :
    d.applyNext K job.mutation.ext call = .error e (d.withDb db) →
    Throws w env (.applying job call) e (d.withDb db)
  | save (reply e) (replaced : Bool) : Throws w env (.save reply) e
      (if replaced then { d with snapshot := some (d.db.save (d.nextLsn - 1)) } else d)
  | logCheckpoint (reply lsn e wal) :
    (wal = d.wal ∨ d.wal.append d.checkpointRecord env.pwrite = .error e wal) →
    Throws w env (.logCheckpoint reply lsn) e { d with
      wal, nextLsn := d.nextLsn + 1, snapshotId := d.snapshotId + 1 }
  | truncate (reply lsn e wal) : d.wal.truncate lsn = .error e wal →
    Throws w env (.truncate reply lsn) e (d.withWal wal)

variable {K d} {d' : DurableVDB ι} {w : Bool} {env : Env} {pc pc' : Pc δ} {e : Exn} {job : Job}

theorem commitTurn_moves (h : d.commitTurn job = .ok pc' d') :
    Moves K d w env (.commit job) pc' d' none := by
  unfold commitTurn at h
  split_ifs at h with hle hsync
  · cases h
    exact .commits job hle
  · cases h
    exact .stays _
  · cases h
    exact .leads job (Nat.not_le.1 hle) (Bool.not_eq_true _ ▸ hsync)

/-- **A section that returns** is a move. -/
theorem moves_of_ok (h : d.runSection K w pc env = .ok pc' d') :
    Moves K d w env pc pc' d' (d.logged w pc env) := by
  cases pc with
  | lookUp req ext =>
    cases h
    split_ifs with hfound
    · exact .found req ext hfound
    · exact .absent req ext (by simpa using hfound)
  | serialPrefix req =>
    dsimp only [runSection] at h
    dsimp only [logged]
    split_ifs at h ⊢ with hw
    · cases h
      exact .stays _
    · obtain ⟨found, d₁, hpre, h⟩ := Outcome.andThen_ok h
      cases h
      rw [hpre]
      rcases serialPrefix_ok hpre with ⟨rfl, hnone, rfl⟩ | ⟨job, wal, ops, rfl, hm, hlsn, hwal, rfl⟩
      · exact .gone req (by simpa using hw) hnone
      · exact .logs req job wal ops (by simpa using hw) hm hlsn hwal
  | commit job => exact commitTurn_moves h
  | capture p =>
    obtain ⟨captured, d₁, hcap, h⟩ := Outcome.andThen_ok h
    cases h
    unfold syncCapture Wal.syncCapture at hcap
    cases hfd : d.wal.activeFd with
    | none =>
      rw [hfd] at hcap
      cases hcap
    | some name =>
      rw [hfd] at hcap
      cases hcap
      exact .captures p name hfd
  | fsync p name target =>
    obtain ⟨_, d₁, hsync, h⟩ := Outcome.andThen_ok h
    cases h
    unfold syncFile at hsync
    split at hsync
    · cases hsync
    · rename_i hnone
      cases hsync
      exact .syncs p name target hnone
  | synced p target =>
    cases p with
    | groupCommit job =>
      -- the leader has put the flag down, so that its own turn cannot find it up
      have h : (d.endSync target).commitTurn job = .ok pc' d' := h
      unfold commitTurn at h
      split_ifs at h with hle hsync
      · cases h
        exact .commitSynced job target hle
      · cases hsync
      · cases h
        exact .leadsAgain job target (Nat.not_le.1 hle)
    | flush job =>
      cases h
      exact .flushed job target
    | checkpoint reply lsn =>
      cases h
      exact .checkpointSynced reply lsn target
    | sync =>
      cases h
      exact .synced target
  | apply job =>
    obtain ⟨call, d₁, happly, h⟩ := Outcome.andThen_ok h
    cases h
    obtain ⟨db, hdb⟩ := applyStart_state (δ := δ) (d := d) (m := job.mutation)
    rw [happly] at hdb
    obtain rfl : d' = d.withDb db := hdb
    exact .applies job call db happly
  | applying job call =>
    obtain ⟨next, d₁, happly, h⟩ := Outcome.andThen_ok h
    cases h
    obtain ⟨db, hdb⟩ : ∃ db, (d.applyNext K job.mutation.ext call).state = d.withDb db :=
      applyNext_state
    rw [happly] at hdb
    obtain rfl : d' = d.withDb db := hdb
    exact .continues job call next db happly
  | maybeFlush job =>
    dsimp only [runSection] at h
    split_ifs at h with hskip
    · cases h
      exact .skipsFlush job
    · cases h
      exact .flushes job (by simpa using (not_or.1 hskip).1)
  | finish job =>
    cases h
    exact .finishes job
  | checkpoint reply =>
    cases h
    split_ifs with hw
    · exact .stays _
    · exact .enters reply (by simpa using hw)
  | drain reply =>
    cases h
    split_ifs with hin
    · exact .drained reply hin
    · exact .stays _
  | save reply =>
    obtain ⟨lsn, d₁, hsave, h⟩ := Outcome.andThen_ok h
    cases h
    unfold saveSnapshot at hsave
    split at hsave
    · cases hsave
      exact .saves reply
    · cases hsave
  | logCheckpoint reply lsn =>
    obtain ⟨_, d₁, hlog, h⟩ := Outcome.andThen_ok h
    cases h
    dsimp only [logged]
    rw [hlog]
    obtain ⟨wal, hwal, rfl⟩ := append_ok hlog
    exact .logsCheckpoint reply lsn wal hwal
  | truncate reply lsn =>
    obtain ⟨_, d₁, htrunc, h⟩ := Outcome.andThen_ok h
    cases h
    obtain ⟨wal, hwal, rfl⟩ := Outcome.mapState_ok htrunc
    exact .truncates reply lsn wal hwal
  | creditCheckpoint reply lsn =>
    cases h
    exact .credits reply lsn
  | returned reply =>
    cases h
    exact .stays _
  | threw e =>
    cases h
    exact .stays _

/-- **A section that throws**. -/
theorem throws_of_error (h : d.runSection K w pc env = .error e d') : Throws K d w env pc e d' := by
  cases pc with
  | serialPrefix req =>
    dsimp only [runSection] at h
    split_ifs at h with hw
    rcases Outcome.andThen_error h with hpre | ⟨_, _, -, h⟩
    · obtain ⟨m, wal, hm, hwal, rfl⟩ := serialPrefix_error hpre
      exact .log req e m wal (by simpa using hw) hm hwal
    · cases h
  | commit job =>
    dsimp only [runSection, commitTurn] at h
    split_ifs at h
  | capture p =>
    rcases Outcome.andThen_error h with hcap | ⟨_, _, -, h⟩
    · unfold syncCapture Wal.syncCapture at hcap
      cases hfd : d.wal.activeFd with
      | none =>
        rw [hfd] at hcap
        cases hcap
        exact .capture p _ hfd
      | some name =>
        rw [hfd] at hcap
        cases hcap
    · cases h
  | fsync p name target =>
    rcases Outcome.andThen_error h with hsync | ⟨_, _, -, h⟩
    · unfold syncFile at hsync
      split at hsync
      · rename_i hsome
        cases hsync
        exact .sync p name target _ (by simp [hsome])
      · cases hsync
    · cases h
  | synced p target =>
    cases p with
    | groupCommit job =>
      dsimp only [runSection, commitTurn] at h
      split_ifs at h
    | _ => cases h
  | apply job =>
    rcases Outcome.andThen_error h with happly | ⟨_, _, -, h⟩
    · obtain ⟨db, hdb⟩ := applyStart_state (δ := δ) (d := d) (m := job.mutation)
      rw [happly] at hdb
      obtain rfl : d' = d.withDb db := hdb
      exact .apply job e db happly
    · cases h
  | applying job call =>
    rcases Outcome.andThen_error h with happly | ⟨_, _, -, h⟩
    · obtain ⟨db, hdb⟩ : ∃ db, (d.applyNext K job.mutation.ext call).state = d.withDb db :=
        applyNext_state
      rw [happly] at hdb
      obtain rfl : d' = d.withDb db := hdb
      exact .next job call e db happly
    · cases h
  | maybeFlush job =>
    dsimp only [runSection] at h
    split_ifs at h
  | save reply =>
    rcases Outcome.andThen_error h with hsave | ⟨_, _, -, h⟩
    · unfold saveSnapshot at hsave
      split at hsave
      · cases hsave
      · rename_i fault _
        cases hsave
        exact .save reply _ fault.replaced
    · cases h
  | logCheckpoint reply lsn =>
    rcases Outcome.andThen_error h with hlog | ⟨_, _, -, h⟩
    · rcases append_error hlog with rfl | ⟨wal, hwal, rfl⟩
      · exact .logCheckpoint reply lsn e d.wal (.inl rfl)
      · exact .logCheckpoint reply lsn e wal (.inr hwal)
    · cases h
  | truncate reply lsn =>
    rcases Outcome.andThen_error h with htrunc | ⟨_, _, -, h⟩
    · obtain ⟨wal, hwal, rfl⟩ := Outcome.mapState_error htrunc
      exact .truncate reply lsn e wal hwal
    · cases h
  | _ => cases h

/-- A section that throws appends no record. -/
theorem logged_of_error (h : d.runSection K w pc env = .error e d') : d.logged w pc env = none := by
  cases pc with
  | serialPrefix req =>
    dsimp only [runSection] at h
    dsimp only [logged]
    split_ifs at h ⊢ with hw
    rcases Outcome.andThen_error h with hpre | ⟨_, _, -, h⟩
    · rw [hpre]
    · cases h
  | logCheckpoint reply lsn =>
    dsimp only [logged]
    rcases Outcome.andThen_error h with hlog | ⟨_, _, -, h⟩
    · rw [hlog]
    · cases h
  | _ => rfl

end DurableVDB

/-- Where a call starts. -/
def Pc.Start {δ : Type} (pc : Pc δ) : Prop :=
  (∃ req : Request, pc = req.start) ∨ pc = .checkpoint .done ∨ pc = .capture .sync

namespace System

variable {ι δ : Type} [ColumnIndex ι] [Distance δ] (K : Kernels δ) (s : System ι δ)

/-- The record that an action appends to the log. -/
def logged : Action → Option WalRecord
  | .run i env => s.calls[i]?.bind fun pc => s.durable.logged s.writing pc env
  | _ => none

/-- An action starts a call, does nothing, or runs a section of one call. -/
inductive Acts (a : Action) : System ι δ → Option WalRecord → Prop
  | starts (pc) : pc.Start → Acts a { s with calls := s.calls ++ [pc] } none
  | idles : Acts a s none
  | moves (i env pc pc' d' r) : a = .run i env → s.calls[i]? = some pc →
    s.durable.Moves K s.writing env pc pc' d' r → Acts a ⟨d', s.calls.set i pc'⟩ r
  | throws (i env pc e d') : a = .run i env → s.calls[i]? = some pc →
    s.durable.Throws K s.writing env pc e d' → Acts a ⟨d', s.calls.set i (.threw e)⟩ none

/-- **An action** is one of these. -/
theorem act_acts (a : Action) : s.Acts K a (s.act K a) (s.logged a) := by
  cases a with
  | invoke req => exact .starts _ (.inl ⟨req, rfl⟩)
  | checkpoint => exact .starts _ (.inr (.inl rfl))
  | sync => exact .starts _ (.inr (.inr rfl))
  | run i env =>
    dsimp only [act, logged]
    cases hi : s.calls[i]? with
    | none => exact .idles
    | some pc =>
      dsimp only [runCall, Option.bind_some]
      cases hrun : s.durable.runSection K s.writing pc env with
      | ok pc' d' => exact .moves i env pc pc' d' _ rfl hi (DurableVDB.moves_of_ok hrun)
      | error e d' =>
        rw [DurableVDB.logged_of_error hrun]
        exact .throws i env pc e d' rfl hi (DurableVDB.throws_of_error hrun)

end System

end Durable

end Vdb
