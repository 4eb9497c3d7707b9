import Vdb.Wal.Outage
import Vdb.Lib.Run

/-!
# Writing the snapshot file

`write_file_atomic` writes a file under another name, syncs it and renames it over the old one; then
it syncs the directory, and does not mind if that fails.

* `writeStep` : the next system call of a write, which may fail, or write a part of the bytes.
* `Saver` : writes one after the other, with a kill or an outage between any two system calls.
* `Saver.register_run` : to its readers the file is a register that is replaced as a whole.  A write
  that throws leaves it as it is, and after one that returns an outage brings an older value back
  only if the directory could not be synced.
-/

namespace Vdb

namespace Durable

/-! ### The file system -/

/-- The names of the snapshot in its directory. -/
structure SnapshotDir where
  path : Option File := none
  /-- What is at `path + ".tmp"`. -/
  tmp : Option File := none
  /-- What has been at `path` since the directory was synced; an outage may bring it back. -/
  stale : List (Option File) := []
  deriving DecidableEq

namespace SnapshotDir

variable (d : SnapshotDir)

/-- `open` with `O_CREAT` and `O_TRUNC`. -/
def openTmp : SnapshotDir := { d with tmp := some {} }

def modifyTmp (f : File → File) : SnapshotDir := { d with tmp := d.tmp.map f }

/-- `rename`, which replaces what is at `path`. -/
def rename : SnapshotDir := { path := d.tmp, tmp := none, stale := d.path :: d.stale }

/-- `fsync` of the directory. -/
def fsyncDir : SnapshotDir := { d with stale := [] }

/-- What an outage may leave at `path`. -/
def candidates : List (Option File) := d.path :: d.stale

/-- An outage leaves the file of one of the names, up to what was not on stable storage, and
anything at all of the other one. -/
def outage (found kept : ℕ) (tmp : Option File) : SnapshotDir where
  path := (d.candidates.getD found d.path).map (·.outage kept)
  tmp := tmp

/-- What a reader may find at `path`, now and after an outage. -/
def images : List (Option Bytes) := d.candidates.map (Option.map File.bytes)

/-- Every file that may be at `path` is on stable storage. -/
def Whole : Prop := ∀ o ∈ d.candidates, ∀ f ∈ o, f.synced = f.bytes.length

end SnapshotDir

/-! ### A write -/

/-- Where a write is: the system call that is next. -/
inductive WritePc where
  | openTmp
  | pwrite (off : ℕ)
  | fsync
  | rename
  | openDir
  | fsyncDir
  deriving DecidableEq

/-- What a system call does. -/
structure SysEnv where
  fails : Bool := false
  errno : Bytes := []
  /-- `pwrite` writes no more than that. -/
  short : Option ℕ := none
  deriving DecidableEq

/-- The result of a `pwrite` of so many bytes. -/
def SysEnv.written (env : SysEnv) (rest : ℕ) : ℤ :=
  if env.fails then -1 else (env.short.elim rest (min · rest) : ℕ)

/-- A system call is behind: the write goes on, returns or throws. -/
inductive Turn where
  | goes (pc : WritePc)
  | returns
  | throws (e : Exn)
  deriving DecidableEq

/-- The head of the loop. -/
def pwriteLoop (bytes : Bytes) (off : ℕ) : WritePc :=
  if off < bytes.length then .pwrite off else .fsync

/-- The next system call of a `write_file_atomic`. -/
def writeStep (bytes : Bytes) (env : SysEnv) (pc : WritePc) (d : SnapshotDir) :
    Turn × SnapshotDir :=
  match pc with
  | .openTmp =>
    if env.fails then (.throws (sysError (ascii "open snapshot tmp") env.errno), d)
    else (.goes (pwriteLoop bytes 0), d.openTmp)
  | .pwrite off =>
    let n := env.written (bytes.length - off)
    if n ≤ 0 then (.throws (sysError (ascii "pwrite snapshot") env.errno), d)
    else (.goes (pwriteLoop bytes (off + n.toNat)),
      d.modifyTmp (·.writeAt off ((bytes.drop off).take n.toNat)))
  | .fsync =>
    if env.fails then (.throws (sysError (ascii "fsync snapshot") env.errno), d)
    else (.goes .rename, d.modifyTmp File.sync)
  | .rename =>
    -- a name that is missing fails too
    if env.fails ∨ d.tmp = none then (.throws (sysError (ascii "rename snapshot") env.errno), d)
    else (.goes .openDir, d.rename)
  | .openDir => (if env.fails then .returns else .goes .fsyncDir, d)
  -- "dir fsync unsupported; ignore", whatever the error
  | .fsyncDir => (.returns, if env.fails then d else d.fsyncDir)

/-! ### Writes one after the other -/

structure Saver where
  dir : SnapshotDir := {}
  /-- The write in progress. -/
  call : Option (Bytes × WritePc) := none
  deriving DecidableEq

inductive SaverAction where
  | save (bytes : Bytes)
  | run (env : SysEnv)
  /-- The process ends. -/
  | kill
  | outage (found kept : ℕ) (tmp : Option File)
  deriving DecidableEq

namespace Saver

variable (s : Saver)

/-- The system call of an action. -/
def turn : SaverAction → Option (Turn × SnapshotDir)
  | .run env => s.call.map fun c => writeStep c.1 env c.2 s.dir
  | _ => none

/-- The result of a write that ends. -/
def reply (a : SaverAction) : Option (Except Exn Unit) :=
  match s.turn a with
  | some (.returns, _) => some (.ok ())
  | some (.throws e, _) => some (.error e)
  | _ => none

def act (a : SaverAction) : Saver :=
  match a with
  | .save bytes => if s.call.isSome then s else { s with call := some (bytes, .openTmp) }
  | .run env =>
    match s.call with
    | none => s
    | some (bytes, pc) =>
      match writeStep bytes env pc s.dir with
      | (.goes pc, dir) => { dir, call := some (bytes, pc) }
      | (_, dir) => { dir }
  | .kill => { s with call := none }
  | .outage found kept tmp => { dir := s.dir.outage found kept tmp }

end Saver

/-! ### What it is for -/

/-- A value that is replaced as a whole. -/
structure Register where
  /-- The value, and behind it those that an outage may bring back. -/
  values : List (Option Bytes)
  /-- The replacement in progress, and whether it has taken place. -/
  call : Option (Bytes × Bool) := none

namespace Register

/-- What an action may do to the register, and what a write answers. -/
inductive Step : Register → SaverAction → Option (Except Exn Unit) → Register → Prop
  | save (vs bytes) : Step ⟨vs, none⟩ (.save bytes) none ⟨vs, some (bytes, false)⟩
  | busy (vs call bytes) : Step ⟨vs, some call⟩ (.save bytes) none ⟨vs, some call⟩
  | idle (vs env) : Step ⟨vs, none⟩ (.run env) none ⟨vs, none⟩
  | goes (vs call env) : Step ⟨vs, some call⟩ (.run env) none ⟨vs, some call⟩
  | replace (vs bytes env) : env.fails = false →
    Step ⟨vs, some (bytes, false)⟩ (.run env) none ⟨some bytes :: vs, some (bytes, true)⟩
  /-- A write that throws has replaced nothing. -/
  | throw (vs bytes env e) :
    Step ⟨vs, some (bytes, false)⟩ (.run env) (some (.error e)) ⟨vs, none⟩
  /-- The directory is synced. -/
  | settle (vs bytes env) : env.fails = false →
    Step ⟨some bytes :: vs, some (bytes, true)⟩ (.run env) (some (.ok ())) ⟨[some bytes], none⟩
  | unsettled (vs bytes env) : env.fails = true →
    Step ⟨some bytes :: vs, some (bytes, true)⟩ (.run env) (some (.ok ())) ⟨some bytes :: vs, none⟩
  | kill (vs call) : Step ⟨vs, call⟩ .kill none ⟨vs, none⟩
  | outage (vs v call found kept tmp) : v ∈ vs →
    Step ⟨vs, call⟩ (.outage found kept tmp) none ⟨[v], none⟩

end Register

/-! ### The file is such a register -/

section

variable {bytes : Bytes} {env : SysEnv} {pc : WritePc} {d d' : SnapshotDir}

/-- The write has replaced the file. -/
def WritePc.Replaced : WritePc → Bool
  | .openDir | .fsyncDir => true
  | _ => false

/-- The system calls that a write of so many bytes may still make. -/
def WritePc.work (size : ℕ) : WritePc → ℕ
  | .openTmp => size + 5
  | .pwrite off => size - off + 4
  | .fsync => 4
  | .rename => 3
  | .openDir => 2
  | .fsyncDir => 1

/-- What a write has done so far. -/
def Held (bytes : Bytes) (d : SnapshotDir) : WritePc → Prop
  | .openTmp => True
  | .pwrite off => off < bytes.length ∧ ∃ f, d.tmp = some f ∧ f.bytes = bytes.take off
  | .fsync => ∃ f, d.tmp = some f ∧ f.bytes = bytes
  | .rename => d.tmp = some ⟨bytes, bytes.length⟩
  | .openDir | .fsyncDir => d.path = some ⟨bytes, bytes.length⟩

theorem bytes_writeAt_take {f : File} {off n : ℕ} (h : f.bytes = bytes.take off)
    (hoff : off ≤ bytes.length) :
    (f.writeAt off ((bytes.drop off).take n)).bytes = bytes.take (off + n) := by
  have hlen : f.bytes.length = off := by rw [h, List.length_take, min_eq_left hoff]
  simp only [File.writeAt]
  rw [List.take_of_length_le hlen.le, hlen, Nat.sub_self, List.replicate_zero, List.nil_append,
    List.drop_eq_nil_of_le (hlen.le.trans (Nat.le_add_right ..)), List.append_nil, h,
    List.take_add]

theorem held_pwriteLoop {f : File} {off : ℕ} (htmp : d.tmp = some f)
    (hf : f.bytes = bytes.take off) : Held bytes d (pwriteLoop bytes off) := by
  unfold pwriteLoop
  split_ifs with hlt
  · exact ⟨hlt, f, htmp, hf⟩
  · exact ⟨f, htmp, hf.trans (List.take_of_length_le (Nat.not_lt.1 hlt))⟩

theorem replaced_pwriteLoop (bytes : Bytes) (off : ℕ) :
    (pwriteLoop bytes off).Replaced = false := by
  unfold pwriteLoop
  split_ifs <;> rfl

theorem work_pwriteLoop (bytes : Bytes) (off : ℕ) :
    (pwriteLoop bytes off).work bytes.length ≤ bytes.length - off + 4 := by
  unfold pwriteLoop
  split_ifs
  · exact le_rfl
  · exact Nat.le_add_left ..

/-- A system call of a write at `pc`, and what it makes of the directory. -/
inductive Wrote (bytes : Bytes) (env : SysEnv) (pc : WritePc) (d : SnapshotDir) :
    Turn → SnapshotDir → Prop
  | goes (pc' : WritePc) (d' : SnapshotDir) : Held bytes d' pc' →
    pc'.work bytes.length < pc.work bytes.length → pc'.Replaced = pc.Replaced →
    d'.candidates = d.candidates → Wrote bytes env pc d (.goes pc') d'
  | replaces (d' : SnapshotDir) : env.fails = false → pc = .rename →
    d'.candidates = some ⟨bytes, bytes.length⟩ :: d.candidates →
    Wrote bytes env pc d (.goes .openDir) d'
  | throws (e : Exn) : pc.Replaced = false → Wrote bytes env pc d (.throws e) d
  | settles (d' : SnapshotDir) : env.fails = false → pc.Replaced = true →
    d'.candidates = [some ⟨bytes, bytes.length⟩] → Wrote bytes env pc d .returns d'
  | unsettled : env.fails = true → pc.Replaced = true → Wrote bytes env pc d .returns d

theorem Held.path (h : Held bytes d pc) (hpc : pc.Replaced = true) :
    d.path = some ⟨bytes, bytes.length⟩ := by
  cases pc with
  | openDir => exact h
  | fsyncDir => exact h
  | _ => cases hpc

/-- **One system call** of a write. -/
theorem wrote {t : Turn} (h : Held bytes d pc) (hstep : writeStep bytes env pc d = (t, d')) :
    Wrote bytes env pc d t d' := by
  cases pc with
  | openTmp =>
    dsimp only [writeStep] at hstep
    split_ifs at hstep with hfails
    · cases hstep
      exact .throws _ rfl
    · cases hstep
      refine .goes _ _ (held_pwriteLoop rfl rfl) ?_ (replaced_pwriteLoop ..) rfl
      exact (work_pwriteLoop ..).trans_lt (Nat.lt_succ_self _)
  | pwrite off =>
    obtain ⟨hoff, f, htmp, hf⟩ := h
    dsimp only [writeStep] at hstep
    split_ifs at hstep with hn
    · cases hstep
      exact .throws _ rfl
    · cases hstep
      -- at least one byte has been written
      have hpos : 0 < (env.written (bytes.length - off)).toNat := by omega
      generalize (env.written (bytes.length - off)).toNat = n at hpos ⊢
      have htmp' : (d.modifyTmp (·.writeAt off ((bytes.drop off).take n))).tmp =
          some (f.writeAt off ((bytes.drop off).take n)) := by
        rw [SnapshotDir.modifyTmp, htmp, Option.map_some]
      refine .goes _ _ (held_pwriteLoop htmp' (bytes_writeAt_take hf hoff.le)) ?_
        (replaced_pwriteLoop ..) rfl
      refine (work_pwriteLoop ..).trans_lt ?_
      dsimp only [WritePc.work]
      omega
  | fsync =>
    obtain ⟨f, htmp, hf⟩ := h
    dsimp only [writeStep] at hstep
    split_ifs at hstep with hfails
    · cases hstep
      exact .throws _ rfl
    · cases hstep
      refine .goes _ _ ?_ (Nat.lt_succ_self _) rfl rfl
      show Option.map File.sync d.tmp = _
      rw [htmp, Option.map_some, File.sync, hf]
  | rename =>
    have htmp : d.tmp = some ⟨bytes, bytes.length⟩ := h
    dsimp only [writeStep] at hstep
    split_ifs at hstep with hfails
    · cases hstep
      exact .throws _ rfl
    · cases hstep
      refine .replaces _ (by simpa [htmp] using hfails) rfl ?_
      rw [SnapshotDir.rename, SnapshotDir.candidates, htmp]
      rfl
  | openDir =>
    dsimp only [writeStep] at hstep
    split_ifs at hstep with hfails
    · cases hstep
      exact .unsettled hfails rfl
    · cases hstep
      exact .goes _ _ h (Nat.lt_succ_self _) rfl rfl
  | fsyncDir =>
    have hpath : d.path = some ⟨bytes, bytes.length⟩ := h
    dsimp only [writeStep] at hstep
    split_ifs at hstep with hfails
    · cases hstep
      exact .unsettled hfails rfl
    · cases hstep
      refine .settles _ (Bool.eq_false_of_not_eq_true hfails) rfl ?_
      rw [SnapshotDir.fsyncDir, SnapshotDir.candidates, hpath]

theorem SnapshotDir.whole_of_candidates {rest : List (Option File)}
    (h : d'.candidates = some ⟨bytes, bytes.length⟩ :: rest)
    (hrest : ∀ o ∈ rest, ∀ f ∈ o, f.synced = f.bytes.length) : d'.Whole := by
  rw [SnapshotDir.Whole, h]
  exact List.forall_mem_cons.2 ⟨fun f hf => by cases hf; rfl, hrest⟩

theorem SnapshotDir.whole_outage (h : d.Whole) (found kept : ℕ) (tmp : Option File) :
    ∃ o ∈ d.candidates, (d.outage found kept tmp).candidates = [o] := by
  obtain ⟨o, hmem, hget⟩ : ∃ o ∈ d.candidates, d.candidates.getD found d.path = o := by
    rw [List.getD_eq_getElem?_getD]
    cases hfound : d.candidates[found]? with
    | none => exact ⟨_, List.mem_cons_self, rfl⟩
    | some o => exact ⟨o, List.mem_of_getElem? hfound, rfl⟩
  refine ⟨o, hmem, congrArg (fun o => [o]) ?_⟩
  rw [SnapshotDir.outage, hget]
  cases o with
  | none => rfl
  | some f =>
    obtain ⟨bytes, synced⟩ := f
    -- nothing of the file can be lost
    have hsynced : synced = bytes.length := h _ hmem _ rfl
    simp [File.outage, File.cut, File.sync, hsynced, List.take_of_length_le]

end

namespace Saver

variable {s : Saver} {r : Register} {bytes : Bytes} {pc : WritePc}

/-- The register that readers take the file for. -/
structure Shows (s : Saver) (r : Register) : Prop where
  values : r.values = s.dir.images
  /-- What an outage leaves at the path is a whole file. -/
  whole : s.dir.Whole
  call : r.call = s.call.map fun c => (c.1, c.2.Replaced)
  held : ∀ c ∈ s.call, Held c.1 s.dir c.2

/-- **One action** is a step of the register. -/
theorem Shows.act (h : s.Shows r) (a : SaverAction) :
    ∃ r', r.Step a (s.reply a) r' ∧ (s.act a).Shows r' := by
  obtain ⟨dir, call⟩ := s
  obtain ⟨values, rcall⟩ := r
  obtain ⟨rfl, hwhole, rfl, hheld⟩ := h
  have himages : ∀ {d : SnapshotDir}, d.candidates = dir.candidates →
      d.images = dir.images ∧ d.Whole := fun heq => by
    rw [SnapshotDir.images, SnapshotDir.images, SnapshotDir.Whole, heq]
    exact ⟨rfl, hwhole⟩
  cases a with
  | save bytes =>
    cases call with
    | none => exact ⟨_, .save _ bytes, rfl, hwhole, rfl, fun c hc => by cases hc; trivial⟩
    | some call => exact ⟨_, .busy _ _ bytes, rfl, hwhole, rfl, hheld⟩
  | kill => exact ⟨_, .kill _ _, rfl, hwhole, rfl, nofun⟩
  | outage found kept tmp =>
    obtain ⟨o, hmem, hcandidates⟩ := SnapshotDir.whole_outage hwhole found kept tmp
    refine ⟨_, .outage _ (o.map File.bytes) _ _ _ _ (List.mem_map_of_mem hmem), ?_, ?_, rfl, nofun⟩
    · exact congrArg (List.map (Option.map File.bytes)) hcandidates.symm
    · intro o' hmem' f hf
      have heq : o' = o := List.mem_singleton.1 (hcandidates ▸ hmem')
      exact hwhole o hmem f (heq ▸ hf)
  | run env =>
    cases call with
    | none => exact ⟨_, .idle _ env, rfl, hwhole, rfl, nofun⟩
    | some call =>
      obtain ⟨bytes, pc⟩ := call
      have hwrote : ∀ {t d'}, writeStep bytes env pc dir = (t, d') → Wrote bytes env pc dir t d' :=
        wrote (hheld _ rfl)
      dsimp only [reply, turn, Saver.act, Option.map_some]
      generalize writeStep bytes env pc dir = result at hwrote ⊢
      obtain ⟨turn, d⟩ := result
      cases hwrote rfl with
      | goes pc' d' hheld' hwork hreplaced hcandidates =>
        obtain ⟨heq, hwhole'⟩ := himages hcandidates
        refine ⟨_, .goes _ _ env, heq.symm, hwhole', ?_, fun c hc => by cases hc; exact hheld'⟩
        rw [Option.map_some, hreplaced]
      | replaces d' hfails hpc hcandidates =>
        obtain ⟨hpath, hstale⟩ := List.cons.inj hcandidates
        subst hpc
        refine ⟨_, .replace _ bytes env hfails, ?_,
          SnapshotDir.whole_of_candidates hcandidates hwhole, rfl,
          fun c hc => by cases hc; exact hpath⟩
        show some bytes :: dir.images = d.images
        rw [SnapshotDir.images, SnapshotDir.images, hcandidates]
        rfl
      | throws e hreplaced =>
        refine ⟨⟨dir.images, none⟩, ?_, rfl, hwhole, rfl, nofun⟩
        rw [hreplaced]
        exact .throw _ bytes env e
      | settles d' hfails hreplaced hcandidates =>
        have hpath := Held.path (hheld _ rfl) hreplaced
        refine ⟨⟨[some bytes], none⟩, ?_, ?_,
          SnapshotDir.whole_of_candidates hcandidates nofun, rfl, nofun⟩
        · rw [SnapshotDir.images, SnapshotDir.candidates, hpath, hreplaced]
          exact .settle _ bytes env hfails
        · rw [SnapshotDir.images, hcandidates]
          rfl
      | unsettled hfails hreplaced =>
        have hpath := Held.path (hheld _ rfl) hreplaced
        refine ⟨⟨dir.images, none⟩, ?_, rfl, hwhole, rfl, nofun⟩
        rw [SnapshotDir.images, SnapshotDir.candidates, hpath, hreplaced]
        exact .unsettled _ bytes env hfails

/-- The system calls that the write in progress may still make. -/
def work (s : Saver) : ℕ := s.call.elim 0 fun c => c.2.work c.1.length

theorem Shows.work_run (h : s.Shows r) (env : SysEnv) : (s.act (.run env)).work ≤ s.work - 1 := by
  obtain ⟨dir, call⟩ := s
  cases call with
  | none => exact Nat.zero_le _
  | some call =>
    obtain ⟨bytes, pc⟩ := call
    have hwrote : ∀ {t d'}, writeStep bytes env pc dir = (t, d') → Wrote bytes env pc dir t d' :=
      wrote (h.held _ rfl)
    dsimp only [Saver.act]
    generalize writeStep bytes env pc dir = result at hwrote ⊢
    obtain ⟨turn, d⟩ := result
    cases hwrote rfl with
    | goes pc' d' hheld hwork hreplaced hcandidates => exact Nat.le_sub_one_of_lt hwork
    | replaces d' hfails hpc hcandidates =>
      subst hpc
      exact le_rfl
    | _ => exact Nat.zero_le _

/-- **The snapshot file** is replaced as a whole, whatever system calls fail and wherever the
process is killed or power is lost; and a write comes to an end by itself. -/
theorem register_run {dir : SnapshotDir} (hwhole : dir.Whole) (as : List SaverAction) :
    Run.Refines act reply Register.Step Shows ⟨dir, none⟩ ⟨dir.images, none⟩ as ∧
      ∀ bytes pc, (as.foldl act ⟨dir, none⟩).call = some (bytes, pc) →
        ∀ envs : List SysEnv, bytes.length + 5 ≤ envs.length →
          ((envs.map .run).foldl act (as.foldl act ⟨dir, none⟩)).call = none := by
  have hstart : (⟨dir, none⟩ : Saver).Shows ⟨dir.images, none⟩ := ⟨rfl, hwhole, rfl, nofun⟩
  refine ⟨(Run.along_of_forall (fun _ _ => trivial) as _).refines (P := fun _ _ => True)
    (fun _ _ h => h) (fun _ _ a h _ => h.act a) hstart, fun bytes pc hcall envs hlen => ?_⟩
  obtain ⟨r, hshows⟩ := Run.invariant (I := fun s : Saver => ∃ r, s.Shows r)
    (fun s a ⟨r, h⟩ => (h.act a).imp fun _ h => h.2) ⟨_, hstart⟩ as
  generalize as.foldl act ⟨dir, none⟩ = s at hcall hshows ⊢
  have hruns : Run.Along act (fun _ a => True ∧ ∃ env, a = .run env) s (envs.map .run) :=
    (Run.along_of_forall (fun _ _ => trivial) _ s).and_forall fun a ha =>
      (List.mem_map.1 ha).imp fun _ h => h.2.symm
  have hdown : ∀ (s : Saver) (a : SaverAction), (∃ r, s.Shows r) → (True ∧ ∃ env, a = .run env) →
      (s.act a).work ≤ s.work - ((fun _ => true : SaverAction → Bool) a).toNat := by
    rintro s a ⟨r, h⟩ ⟨-, env, rfl⟩
    exact h.work_run env
  have hle := hruns.countdown (fun s a ⟨r, h⟩ _ => (h.act a).imp fun _ h => h.2) hdown ⟨r, hshows⟩
  have hwork : s.work ≤ bytes.length + 5 := by
    rw [work, hcall, Option.elim_some]
    cases pc <;> dsimp only [WritePc.work] <;> omega
  rw [List.countP_true, List.length_map] at hle
  have hzero : ((envs.map .run).foldl act s).work = 0 := by omega
  cases hend : ((envs.map .run).foldl act s).call with
  | none => rfl
  | some call =>
    rw [work, hend, Option.elim_some] at hzero
    obtain ⟨bytes', pc'⟩ := call
    cases pc' <;> dsimp only [WritePc.work] at hzero <;> omega

/-- A directory with a snapshot of one byte. -/
def onFile : Saver := { dir := { path := some ⟨[0], 1⟩ } }

/-- A write that finds the disk full after two bytes, and one after whose `rename` power is lost. -/
def torn : List SaverAction :=
  [.save [1, 2, 3], .run {}, .run { short := some 2 },
    .run { fails := true, errno := ascii "No space left on device" },
    .save [1, 2, 3], .run {}, .run {}, .run {}, .run {}, .outage 1 0 (some ⟨[1], 1⟩),
    .save [4], .run {}]

theorem register_torn :
    Run.Refines act reply Register.Step Shows onFile ⟨[some [0]], none⟩ torn ∧
      ∀ bytes pc, (torn.foldl act onFile).call = some (bytes, pc) →
        ∀ envs : List SysEnv, bytes.length + 5 ≤ envs.length →
          ((envs.map .run).foldl act (torn.foldl act onFile)).call = none := by
  have hcandidates : onFile.dir.candidates = [some ⟨[0], [0].length⟩] := rfl
  exact register_run (SnapshotDir.whole_of_candidates hcandidates nofun) torn

end Saver

end Durable

end Vdb
