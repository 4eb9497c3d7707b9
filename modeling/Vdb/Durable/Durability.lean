import Vdb.Durable.Bookkeeping
import Vdb.Durable.Moves
import Vdb.Lib.Prefix
import Vdb.Wal.Found

/-!
# What is durable

`durable_lsn_` is advanced by `group_commit_`, by `maybe_flush_`, by `sync` and by `checkpoint`,
each time by an `fsync` that ran without a lock while appends and rotations went on.  A `Traced`
system remembers the records of its log and where they are, and which of them `truncate` has taken
off stable storage again.

* `Traced.Honest` : every record up to `durable_lsn_` is on stable storage, or was until it was
  reclaimed; a mutator is past `group_commit_` only with its own record and all before it; and only
  such a mutator changes the database.
* `Traced.honest_iff` : every run of every number of calls is honest, if and only if the records
  that the constructor has found were on stable storage: it credits them without an `fsync`.

A failed `fsync` leaves what it was to bring to stable storage where it is, for the next one.
-/

namespace Vdb

namespace Durable

open Metadata Database

/-- The job of a mutator behind `group_commit_`. -/
def Pc.committed {δ : Type} : Pc δ → Option Job
  | .apply job => some job
  | .applying job _ => some job
  | .finish job => some job
  | _ => none

/-- A system with the history of its log. -/
structure Traced (ι δ : Type) where
  system : System ι δ
  /-- The records of the log, those included that are reclaimed. -/
  log : List Place
  /-- What was on stable storage when its file was unlinked. -/
  reclaimed : Set Place := ∅

namespace Traced

variable {ι δ : Type} [ColumnIndex ι] [Distance δ] (K : Kernels δ) (t : Traced ι δ)

def wal : Wal := t.system.durable.wal

/-- The record is on stable storage. -/
def Stable (p : Place) : Prop := t.wal.Stable p.record p.file p.frameEnd

/-- The record is on stable storage, or was until it was reclaimed. -/
def Persistent (p : Place) : Prop := t.Stable p ∨ p ∈ t.reclaimed

/-- The history behind a step to `s` that has appended `r`. -/
def after (s : System ι δ) (r : Option WalRecord) : Traced ι δ where
  system := s
  log := t.log ++ (r.map fun r =>
    ⟨r, s.durable.wal.activeFd.getD [], s.durable.wal.activeBytes⟩).toList
  reclaimed := t.reclaimed ∪ {p | t.Stable p ∧ s.durable.wal.files.find p.file = none}

def act (a : Action) : Traced ι δ := t.after (t.system.act K a) (t.system.logged a)

/-- Every record up to this lsn is durable. -/
def Covers (lsn : ℕ) : Prop := ∀ p ∈ t.log, p.record.lsn ≤ lsn → t.Persistent p

/-- The record of the job is in the log. -/
def Logs (job : Job) : Prop := ∃ p ∈ t.log, p.record = job.mutation.toRecord job.lsn

/-- The accounting of what is durable tells the truth. -/
structure Honest : Prop where
  credited : t.Covers t.system.durable.durableLsn
  committed : ∀ pc ∈ t.system.calls, ∀ job, pc.committed = some job → t.Logs job ∧ t.Covers job.lsn
  visible : ∀ a, (t.system.act K a).durable.db = t.system.durable.db ∨
    (∃ req : Request, (t.system.act K a).durable.db = req.reserved t.system.durable.db) ∨
      ∃ i env pc job, a = .run i env ∧ t.system.calls[i]? = some pc ∧ pc.committed = some job

/-! ### The invariant -/

/-- The job has waited for its record if the policy asks for it. -/
def Waited (job : Job) : Prop :=
  t.system.durable.opts.policy = .perOpSync → job.lsn ≤ t.system.durable.durableLsn

/-- On whose behalf a call syncs up to this lsn. -/
def PurposeOk (target : ℕ) : Purpose → Prop
  | .groupCommit job => t.Logs job
  | .flush job => t.Logs job ∧ t.Waited job
  | .checkpoint _ lsn => lsn ≤ target
  | .sync => True

/-- What is known of a call. -/
def CallOk : Pc δ → Prop
  | .commit job => t.Logs job
  | .capture p => t.PurposeOk t.wal.highestLsn p
  | .fsync p name target => t.PurposeOk target p ∧ target < t.system.durable.nextLsn ∧
    ∀ q ∈ t.log, q.record.lsn ≤ target →
      t.Persistent q ∨ q.file = name ∧ t.wal.OnDisk q.record q.file q.frameEnd
  | .synced p target => t.PurposeOk target p ∧ target < t.system.durable.nextLsn ∧ t.Covers target
  | .apply job => t.Logs job ∧ t.Waited job
  | .applying job _ => t.Logs job ∧ t.Waited job
  | .maybeFlush job => t.Logs job ∧ t.Waited job
  | .finish job => t.Logs job ∧ t.Waited job
  | .logCheckpoint _ lsn => lsn < t.system.durable.nextLsn
  | .truncate _ lsn => lsn < t.system.durable.nextLsn ∧ t.Covers lsn
  | .creditCheckpoint _ lsn => lsn < t.system.durable.nextLsn ∧ t.Covers lsn
  | _ => True

structure Inv : Prop where
  laid : t.wal.Laid
  placed : ∀ p ∈ t.log, t.wal.OnDisk p.record p.file p.frameEnd ∨ p ∈ t.reclaimed
  noted : ∀ p ∈ t.log, p.record.lsn ≤ t.wal.highestLsn
  high : t.wal.highestLsn < t.system.durable.nextLsn
  durable : t.system.durable.durableLsn < t.system.durable.nextLsn
  covers : t.Covers t.system.durable.durableLsn
  calls : ∀ pc ∈ t.system.calls, t.CallOk pc

variable {K t} {t' : Traced ι δ} {p : Place} {pc pc' : Pc δ} {job : Job} {purpose : Purpose}
  {target lsn : ℕ}

/-- What every action does to the log and to its accounting. -/
structure Grows (t t' : Traced ι δ) : Prop where
  policy : t'.system.durable.opts = t.system.durable.opts
  nextLsn : t.system.durable.nextLsn ≤ t'.system.durable.nextLsn
  durableLsn : t.system.durable.durableLsn ≤ t'.system.durable.durableLsn
  highestLsn : t.wal.highestLsn ≤ t'.wal.highestLsn
  old : ∀ p ∈ t.log, p ∈ t'.log
  new : ∀ p ∈ t'.log, p ∈ t.log ∨ t.system.durable.nextLsn ≤ p.record.lsn
  durable : ∀ p, t.Persistent p → t'.Persistent p
  onDisk : ∀ p : Place, t.wal.OnDisk p.record p.file p.frameEnd →
    t'.wal.OnDisk p.record p.file p.frameEnd ∨ p ∈ t'.reclaimed

omit [ColumnIndex ι] [Distance δ]

/-- What is covered stays so: later records have larger lsns. -/
theorem Grows.covers (g : t.Grows t') (h : t.Covers lsn) (hlt : lsn < t.system.durable.nextLsn) :
    t'.Covers lsn := fun p hp hle =>
  (g.new p hp).elim (fun hp => g.durable p (h p hp hle)) fun hnew => absurd hle (by omega)

theorem Grows.logs (g : t.Grows t') (h : t.Logs job) : t'.Logs job := by
  obtain ⟨p, hp, hr⟩ := h
  exact ⟨p, g.old p hp, hr⟩

theorem Grows.waited (g : t.Grows t') (h : t.Waited job) : t'.Waited job := fun hpolicy =>
  (h (g.policy ▸ hpolicy)).trans g.durableLsn

theorem Grows.purposeOk (g : t.Grows t') {target' : ℕ} (hle : target ≤ target')
    (h : t.PurposeOk target purpose) : t'.PurposeOk target' purpose := by
  cases purpose with
  | groupCommit job => exact g.logs h
  | flush job => exact ⟨g.logs h.1, g.waited h.2⟩
  | checkpoint reply lsn => exact le_trans h hle
  | sync => exact trivial

/-- What is known of a call stays true while others act. -/
theorem Grows.callOk (g : t.Grows t') (h : t.CallOk pc) : t'.CallOk pc := by
  cases pc with
  | commit job => exact g.logs h
  | capture p => exact g.purposeOk g.highestLsn h
  | fsync p name target =>
    obtain ⟨hp, hlt, hdisk⟩ := h
    refine ⟨g.purposeOk le_rfl hp, hlt.trans_le g.nextLsn, fun q hq hle => ?_⟩
    rcases g.new q hq with hq | hnew
    · rcases hdisk q hq hle with hd | ⟨hname, hd⟩
      · exact .inl (g.durable q hd)
      · exact (g.onDisk q hd).elim (fun hd => .inr ⟨hname, hd⟩) fun hr => .inl (.inr hr)
    · omega
  | synced p target =>
    obtain ⟨hp, hlt, hcov⟩ := h
    exact ⟨g.purposeOk le_rfl hp, hlt.trans_le g.nextLsn, g.covers hcov hlt⟩
  | apply job => exact ⟨g.logs h.1, g.waited h.2⟩
  | applying job call => exact ⟨g.logs h.1, g.waited h.2⟩
  | maybeFlush job => exact ⟨g.logs h.1, g.waited h.2⟩
  | finish job => exact ⟨g.logs h.1, g.waited h.2⟩
  | logCheckpoint reply lsn => exact lt_of_lt_of_le h g.nextLsn
  | truncate reply lsn => exact ⟨h.1.trans_le g.nextLsn, g.covers h.2 h.1⟩
  | creditCheckpoint reply lsn => exact ⟨h.1.trans_le g.nextLsn, g.covers h.2 h.1⟩
  | _ => exact trivial

/-! ### Steps -/

/-- What a section does to the log of a durable database. -/
structure Advances (d d' : DurableVDB ι) (r : Option WalRecord) : Prop where
  opts : d'.opts = d.opts
  nextLsn : d.nextLsn ≤ d'.nextLsn
  durableLsn : d.durableLsn ≤ d'.durableLsn
  evolves : d.wal.Evolves d'.wal
  high : d.wal.highestLsn < d.nextLsn → d'.wal.highestLsn < d'.nextLsn
  logged : ∀ r', r = some r' → r'.lsn = d.nextLsn ∧ r'.lsn ≤ d'.wal.highestLsn ∧
    ∃ name, d'.wal.activeFd = some name ∧ d'.wal.OnDisk r' name d'.wal.activeBytes

variable {d d' : DurableVDB ι} {w : Bool} {env : Env} {r : Option WalRecord} {e : Exn}

/-- The log is not touched. -/
theorem advances_of_wal_eq (h : d.wal.Laid) (hwal : d'.wal = d.wal) (hopts : d'.opts = d.opts)
    (hnext : d.nextLsn ≤ d'.nextLsn) (hdurable : d.durableLsn ≤ d'.durableLsn) :
    Advances d d' none where
  opts := hopts
  nextLsn := hnext
  durableLsn := hdurable
  evolves := hwal ▸ h.evolves (Wal.Keeps.refl d.wal) le_rfl
  high hlt := hwal ▸ hlt.trans_le hnext
  logged _ hr := by cases hr

/-- A record is appended. -/
theorem advances_of_append {wal : Wal} {record : WalRecord} (h : d.wal.Laid)
    (happ : d.wal.append record env.pwrite = .ok () wal) (hlsn : record.lsn = d.nextLsn)
    (hwal : d'.wal = wal) (hopts : d'.opts = d.opts) (hnext : d'.nextLsn = d.nextLsn + 1)
    (hdurable : d'.durableLsn = d.durableLsn) : Advances d d' (some record) := by
  obtain ⟨hlaid, hkeeps, hdisk, hhigh⟩ := h.append happ
  subst hwal
  refine ⟨hopts, by omega, hdurable.ge, hlaid.evolves hkeeps (by omega), fun hlt => by omega, ?_⟩
  rintro r' hr
  cases hr
  exact ⟨hlsn, by omega, hdisk⟩

/-- An append throws. -/
theorem advances_of_append_error {wal : Wal} {record : WalRecord} (h : d.wal.Laid)
    (happ : wal = d.wal ∨ d.wal.append record env.pwrite = .error e wal)
    (hwal : d'.wal = wal) (hopts : d'.opts = d.opts) (hnext : d'.nextLsn = d.nextLsn + 1)
    (hdurable : d'.durableLsn = d.durableLsn) : Advances d d' none := by
  rcases happ with rfl | happ
  · exact advances_of_wal_eq h hwal hopts (by omega) hdurable.ge
  · obtain ⟨hlaid, hkeeps, hhigh⟩ := h.append_error happ
    subst hwal
    exact ⟨hopts, by omega, hdurable.ge, hlaid.evolves hkeeps hhigh.ge, fun hlt => by omega, nofun⟩

theorem advances_credit (h : d.wal.Laid) (synced : ℕ) : Advances d (d.credit synced) none :=
  advances_of_wal_eq h rfl rfl le_rfl (by dsimp only [DurableVDB.credit]; split_ifs <;> omega)

variable [ColumnIndex ι] [Distance δ]

theorem advances_of_moves (h : d.wal.Laid) (hm : d.Moves K w env pc pc' d' r) :
    Advances d d' r := by
  have hsame : ∀ {d' : DurableVDB ι}, d'.wal = d.wal → d'.opts = d.opts → d'.nextLsn = d.nextLsn →
      d'.durableLsn = d.durableLsn → Advances d d' none := fun hwal hopts hnext hdurable =>
    advances_of_wal_eq h hwal hopts hnext.ge hdurable.ge
  cases hm with
  | logs req job wal ops _ _ hlsn happ =>
    exact advances_of_append h happ (by rw [Mutation.lsn_toRecord, hlsn]) rfl rfl rfl rfl
  | syncs p name target _ =>
    exact ⟨rfl, le_rfl, le_rfl,
      (h.syncFile name).evolves (Wal.keeps_syncFile d.wal name) le_rfl, id, nofun⟩
  | commitSynced job target _ =>
    exact advances_of_wal_eq h rfl rfl le_rfl (advances_credit h target).durableLsn
  | leadsAgain job target _ =>
    exact advances_of_wal_eq h rfl rfl le_rfl (advances_credit h target).durableLsn
  | flushed job target =>
    exact advances_of_wal_eq h rfl rfl le_rfl (advances_credit h target).durableLsn
  | synced target => exact advances_credit h target
  | credits reply lsn => exact advances_credit h lsn
  | logsCheckpoint reply lsn wal happ => exact advances_of_append h happ rfl rfl rfl rfl rfl
  | truncates reply lsn wal htrunc =>
    obtain ⟨wal', hwal, hev, hhigh⟩ := h.evolves_truncate lsn
    rw [hwal] at htrunc
    cases htrunc
    exact ⟨rfl, le_rfl, le_rfl, hev, hhigh.trans_lt, nofun⟩
  | _ => exact hsame rfl rfl rfl rfl

theorem advances_of_throws (h : d.wal.Laid) (ht : d.Throws K w env pc e d') :
    Advances d d' none := by
  cases ht with
  | log req e m wal _ _ happ => exact advances_of_append_error h happ rfl rfl rfl rfl
  | logCheckpoint reply lsn e wal happ => exact advances_of_append_error h happ rfl rfl rfl rfl
  | save reply e replaced =>
    exact advances_of_wal_eq h (by split_ifs <;> rfl) (by split_ifs <;> rfl)
      (by split_ifs <;> exact le_rfl) (by split_ifs <;> exact le_rfl)
  | truncate reply lsn e wal htrunc =>
    obtain ⟨wal', hwal, -⟩ := h.evolves_truncate lsn
    rw [hwal] at htrunc
    cases htrunc
  | _ => exact advances_of_wal_eq h rfl rfl le_rfl le_rfl

section

variable {s : System ι δ} {i : ℕ} {a : Action}

omit [ColumnIndex ι] [Distance δ] in
theorem mem_after : p ∈ (t.after s r).log ↔ p ∈ t.log ∨ ∃ r', r = some r' ∧
    p = ⟨r', s.durable.wal.activeFd.getD [], s.durable.wal.activeBytes⟩ := by
  cases r with
  | none => simp [after]
  | some r' => simp [after]

omit [ColumnIndex ι] [Distance δ] in
/-- **A step** that advances the database makes the history grow. -/
theorem grows_after (h : Advances t.system.durable s.durable r) : t.Grows (t.after s r) where
  policy := h.opts
  nextLsn := h.nextLsn
  durableLsn := h.durableLsn
  highestLsn := h.evolves.high
  old p hp := mem_after.2 (.inl hp)
  new p hp := by
    rcases mem_after.1 hp with hp | ⟨r', hr, rfl⟩
    · exact .inl hp
    · exact .inr (h.logged r' hr).1.ge
  durable p hp := by
    rcases hp with hp | hp
    · rcases h.evolves.stable _ _ _ hp with hp' | hnone
      · exact .inl hp'
      · exact .inr (.inr ⟨hp, hnone⟩)
    · exact .inr (.inl hp)
  onDisk p hp := by
    rcases h.evolves.onDisk _ _ _ hp with hp' | ⟨hstable, hnone⟩
    · exact .inl hp'
    · exact .inr (.inr ⟨hstable, hnone⟩)

omit [ColumnIndex ι] [Distance δ] in
/-- The invariant behind a step, but for the call that ran and what is credited. -/
theorem Inv.after (h : t.Inv) (hadv : Advances t.system.durable s.durable r)
    (hdurable : s.durable.durableLsn < s.durable.nextLsn)
    (hcovers : (t.after s r).Covers s.durable.durableLsn)
    (hcalls : ∀ pc ∈ s.calls, pc ∈ t.system.calls ∨ (t.after s r).CallOk pc) :
    (t.after s r).Inv where
  laid := hadv.evolves.laid
  placed p hp := by
    rcases mem_after.1 hp with hp | ⟨r', hr, rfl⟩
    · rcases h.placed p hp with hd | hr
      · exact (grows_after hadv).onDisk p hd
      · exact .inr (.inl hr)
    · obtain ⟨-, -, name, hname, hdisk⟩ := hadv.logged r' hr
      refine .inl ?_
      dsimp only
      rw [hname]
      exact hdisk
  noted p hp := by
    rcases mem_after.1 hp with hp | ⟨r', hr, rfl⟩
    · exact (h.noted p hp).trans hadv.evolves.high
    · exact (hadv.logged r' hr).2.1
  high := hadv.high h.high
  durable := hdurable
  covers := hcovers
  calls pc hpc := (hcalls pc hpc).elim (fun hold => (grows_after hadv).callOk (h.calls pc hold)) id

omit [ColumnIndex ι] [Distance δ] in
/-- What covers what is credited already, and the lsns up to `synced`, covers both. -/
theorem covers_credit {synced : ℕ} {durable : DurableVDB ι} (hd : t.Covers durable.durableLsn)
    (hs : t.Covers synced) : t.Covers (durable.credit synced).durableLsn := by
  dsimp only [DurableVDB.credit]
  split_ifs
  · exact hs
  · exact hd

omit [ColumnIndex ι] [Distance δ] in
theorem callOk_behindPrefix (hlogs : t.Logs job) (d : DurableVDB ι)
    (hopts : t.system.durable.opts = d.opts) : t.CallOk (d.behindPrefix job) := by
  unfold DurableVDB.behindPrefix
  cases hp : d.opts.policy with
  | perOpSync => exact hlogs
  | periodic =>
    refine ⟨hlogs, fun hpolicy => ?_⟩
    rw [hopts, hp] at hpolicy
    cases hpolicy

omit [ColumnIndex ι] [Distance δ] in
theorem callOk_behindApply (hlogs : t.Logs job) (hwaited : t.Waited job) (d : DurableVDB ι) :
    t.CallOk (d.behindApply job) := by
  unfold DurableVDB.behindApply
  split <;> exact ⟨hlogs, hwaited⟩

/-- **One section** that returns: what is then known of its call, and what is credited. -/
theorem Inv.moves (h : t.Inv) (cs : List (Pc δ)) (hpc : t.CallOk pc)
    (hm : t.system.durable.Moves K w env pc pc' d' r) :
    d'.durableLsn < d'.nextLsn ∧ (t.after ⟨d', cs⟩ r).Covers d'.durableLsn ∧
      (t.after ⟨d', cs⟩ r).CallOk pc' := by
  have hadv := advances_of_moves h.laid hm
  have g : t.Grows (t.after ⟨d', cs⟩ r) := grows_after hadv
  have hcov := g.covers h.covers h.durable
  -- a section that credits nothing
  have hplain : d'.durableLsn = t.system.durable.durableLsn → (t.after ⟨d', cs⟩ r).CallOk pc' →
      d'.durableLsn < d'.nextLsn ∧ (t.after ⟨d', cs⟩ r).Covers d'.durableLsn ∧
        (t.after ⟨d', cs⟩ r).CallOk pc' := fun heq hok =>
    ⟨heq ▸ h.durable.trans_le hadv.nextLsn, heq ▸ hcov, hok⟩
  -- and one that credits what its call has synced
  have hcredit : ∀ {target : ℕ}, target < t.system.durable.nextLsn → t.Covers target →
      d'.durableLsn = (t.system.durable.credit target).durableLsn →
      d'.nextLsn = t.system.durable.nextLsn →
      d'.durableLsn < d'.nextLsn ∧ (t.after ⟨d', cs⟩ r).Covers d'.durableLsn := by
    intro target hlt htarget heq hnext
    have hboth := g.covers htarget hlt
    refine ⟨?_, heq ▸ covers_credit hcov hboth⟩
    have hd := h.durable
    rw [heq, hnext]
    dsimp only [DurableVDB.credit]
    split_ifs <;> omega
  cases hm with
  | stays => exact hplain rfl (g.callOk hpc)
  | found req ext _ => exact hplain rfl trivial
  | absent req ext _ => exact hplain rfl trivial
  | gone req _ _ => exact hplain rfl trivial
  | logs req job wal ops _ _ _ _ =>
    exact hplain rfl (callOk_behindPrefix ⟨_, mem_after.2 (.inr ⟨_, rfl, rfl⟩), rfl⟩ _ rfl)
  | commits job hle => exact hplain rfl ⟨g.logs hpc, fun _ => hle⟩
  | leads job _ _ => exact hplain rfl (g.logs hpc)
  | captures p name hact =>
    refine hplain rfl ⟨g.purposeOk le_rfl hpc, h.high, fun q hq _ => ?_⟩
    rcases mem_after.1 hq with hq | ⟨r', hr, -⟩
    · rcases h.placed q hq with hdisk | hrec
      · by_cases hfile : q.file = name
        · exact .inr ⟨hfile, hdisk⟩
        · -- what is in another file is on stable storage already
          refine .inl (g.durable q (.inl (hdisk.stable fun hq => hfile ?_)))
          exact Option.some.inj (hq.symm.trans hact)
      · exact .inl (g.durable q (.inr hrec))
    · cases hr
  | syncs p name target _ =>
    obtain ⟨hp, hlt, hdisk⟩ := hpc
    refine hplain rfl ⟨g.purposeOk le_rfl hp, hlt, fun q hq hle => ?_⟩
    rcases mem_after.1 hq with hq | ⟨r', hr, -⟩
    · rcases hdisk q hq hle with hd | ⟨rfl, hd⟩
      · exact g.durable q hd
      · exact .inl hd.syncFile
    · cases hr
  | commitSynced job target hle =>
    obtain ⟨hp, hlt, htarget⟩ := hpc
    obtain ⟨hd, hc⟩ := hcredit hlt htarget rfl rfl
    exact ⟨hd, hc, g.logs hp, fun _ => hle⟩
  | leadsAgain job target _ =>
    obtain ⟨hp, hlt, htarget⟩ := hpc
    obtain ⟨hd, hc⟩ := hcredit hlt htarget rfl rfl
    exact ⟨hd, hc, g.logs hp⟩
  | flushed job target =>
    obtain ⟨hp, hlt, htarget⟩ := hpc
    obtain ⟨hd, hc⟩ := hcredit hlt htarget rfl rfl
    exact ⟨hd, hc, g.logs hp.1, g.waited hp.2⟩
  | checkpointSynced reply lsn target =>
    obtain ⟨hp, hlt, htarget⟩ := hpc
    exact hplain rfl ⟨lt_of_le_of_lt hp hlt,
      g.covers (fun q hq hle => htarget q hq (hle.trans hp)) (lt_of_le_of_lt hp hlt)⟩
  | synced target =>
    obtain ⟨-, hlt, htarget⟩ := hpc
    obtain ⟨hd, hc⟩ := hcredit hlt htarget rfl rfl
    exact ⟨hd, hc, trivial⟩
  | applies job call db _ =>
    refine hplain rfl ?_
    cases call with
    | none => exact callOk_behindApply (g.logs hpc.1) (g.waited hpc.2) _
    | some call => exact ⟨g.logs hpc.1, g.waited hpc.2⟩
  | continues job call next db _ =>
    refine hplain rfl ?_
    cases next with
    | none => exact callOk_behindApply (g.logs hpc.1) (g.waited hpc.2) _
    | some call => exact ⟨g.logs hpc.1, g.waited hpc.2⟩
  | skipsFlush job => exact hplain rfl ⟨g.logs hpc.1, g.waited hpc.2⟩
  | flushes job _ => exact hplain rfl ⟨g.logs hpc.1, g.waited hpc.2⟩
  | finishes job =>
    refine hplain rfl ?_
    split_ifs <;> exact trivial
  | enters reply _ => exact hplain rfl trivial
  | drained reply _ => exact hplain rfl trivial
  | saves reply =>
    have hpos := h.high
    exact hplain rfl (Nat.sub_one_lt_of_lt hpos)
  | logsCheckpoint reply lsn wal happ =>
    refine hplain rfl ?_
    have hlt : lsn < t.system.durable.nextLsn := hpc
    obtain ⟨hlsn, hle, -⟩ := hadv.logged _ rfl
    exact hlt.le.trans (hlsn ▸ hle)
  | truncates reply lsn wal _ => exact hplain rfl ⟨hpc.1, g.covers hpc.2 hpc.1⟩
  | credits reply lsn =>
    obtain ⟨hd, hc⟩ := hcredit hpc.1 hpc.2 rfl rfl
    exact ⟨hd, hc, trivial⟩

/-- **One action** keeps the invariant. -/
theorem Inv.act (h : t.Inv) (a : Action) : (t.act K a).Inv := by
  have hsame : Advances t.system.durable t.system.durable none :=
    advances_of_wal_eq h.laid rfl rfl le_rfl le_rfl
  unfold Traced.act
  generalize hs : t.system.act K a = s, hr : t.system.logged a = r
  have hacts := t.system.act_acts K a
  rw [hs, hr] at hacts
  cases hacts with
  | starts pc hpc =>
    refine h.after hsame h.durable ((grows_after hsame).covers h.covers h.durable)
      fun q hq => (List.mem_append.1 hq).imp_right fun hq => ?_
    rw [List.mem_singleton.1 hq]
    rcases hpc with ⟨req, rfl⟩ | rfl | rfl
    · cases req <;> exact trivial
    · exact trivial
    · exact trivial
  | idles =>
    exact h.after hsame h.durable ((grows_after hsame).covers h.covers h.durable) fun q hq =>
      .inl hq
  | moves i env pc pc' d' r _ hi hm =>
    obtain ⟨hd, hc, hok⟩ :=
      h.moves (t.system.calls.set i pc') (h.calls pc (List.mem_of_getElem? hi)) hm
    refine h.after (advances_of_moves h.laid hm) hd hc fun q hq =>
      (List.mem_or_eq_of_mem_set hq).imp_right fun hq => ?_
    rw [hq]
    exact hok
  | throws i env pc e d' _ hi ht =>
    have hadv := advances_of_throws h.laid ht
    have heq : d'.durableLsn = t.system.durable.durableLsn := by
      cases ht with
      | save reply e replaced => split_ifs <;> rfl
      | _ => rfl
    refine h.after hadv ?_ ?_ fun q hq => (List.mem_or_eq_of_mem_set hq).imp_right fun hq => ?_
    · exact heq ▸ h.durable.trans_le hadv.nextLsn
    · exact heq ▸ (grows_after hadv).covers h.covers h.durable
    · rw [hq]
      exact trivial

end

/-- With the invariant, and the policy that waits, the accounting is honest. -/
theorem Inv.honest (h : t.Inv) (hpolicy : t.system.durable.opts.policy = .perOpSync) :
    t.Honest K where
  credited := h.covers
  committed pc hpc job hjob := by
    have hok : t.Logs job ∧ t.Waited job := by
      have hpc := h.calls pc hpc
      cases pc with
      | apply job' =>
        cases hjob
        exact hpc
      | applying job' call =>
        cases hjob
        exact hpc
      | finish job' =>
        cases hjob
        exact hpc
      | _ => cases hjob
    exact ⟨hok.1, fun p hp hle => h.covers p hp (hle.trans (hok.2 hpolicy))⟩
  visible a := by
    -- by the kind of section: only a prefix and an application touch the database
    have hacts := t.system.act_acts K a
    generalize t.system.act K a = s, t.system.logged a = r at hacts ⊢
    cases hacts with
    | starts pc hpc => exact .inl rfl
    | idles => exact .inl rfl
    | moves i env pc pc' d' r ha hi hm =>
      cases hm with
      | logs req job wal ops _ _ _ _ => exact .inr (.inl ⟨req, rfl⟩)
      | applies job call db _ => exact .inr (.inr ⟨i, env, _, job, ha, hi, rfl⟩)
      | continues job call next db _ => exact .inr (.inr ⟨i, env, _, job, ha, hi, rfl⟩)
      | _ => exact .inl rfl
    | throws i env pc e d' ha hi ht =>
      cases ht with
      | log req e m wal _ _ _ => exact .inr (.inl ⟨req, rfl⟩)
      | apply job e db _ => exact .inr (.inr ⟨i, env, _, job, ha, hi, rfl⟩)
      | next job call e db _ => exact .inr (.inr ⟨i, env, _, job, ha, hi, rfl⟩)
      | save reply e replaced =>
        refine .inl ?_
        dsimp only
        split_ifs <;> rfl
      | _ => exact .inl rfl

/-! ### The constructor -/

end Traced

/-- What the log of a database of this configuration is opened with. -/
def openerOf (config : VDBConfig) : Opener where
  dim := UInt32.ofNat config.dim
  metric := UInt8.ofNat config.metric.toByte
  schemaFp := computeFingerprint config.schema

namespace DurableVDB

variable {ι δ : Type} [ColumnIndex ι] [Distance δ] {K : Kernels δ} {config : VDBConfig}
  {opts : Options} {walDir : Bytes} {files : Dir} {snapshot : Option Bytes} {d d' : DurableVDB ι}
  {cs : List Content} {lsn : ℕ}

/-- A snapshot is loaded, unless there is none. -/
theorem loadSnapshot_parts (h : d.loadSnapshot = .ok lsn d') :
    (d.snapshot = none ∧ lsn = 0 ∧ d' = d) ∨ ∃ bytes db rest, d.snapshot = some bytes ∧
      d.db.load bytes = .ok ((lsn, db), rest) ∧ d' = d.withDb db := by
  unfold loadSnapshot at h
  split at h
  · rename_i hnone
    cases h
    exact .inl ⟨hnone, rfl, rfl⟩
  · rename_i bytes hsome
    split at h
    · cases h
    · rename_i lsn db rest hload
      cases h
      exact .inr ⟨bytes, db, rest, hsome, hload, rfl⟩

theorem opener_loadSnapshot (h : d.loadSnapshot = .ok lsn d') : d'.opener = d.opener := by
  rcases loadSnapshot_parts h with ⟨-, -, rfl⟩ | ⟨bytes, db, rest, -, hload, rfl⟩
  · rfl
  · have hfp := (d.db.load_config _ _ _ hload).2
    unfold opener withDb
    dsimp only at hfp ⊢
    rw [hfp]

omit [Distance δ] in
theorem fingerprint_new {db : VDB ι} (hnew : VDB.new config = .ok db) :
    db.metadata.fingerprint = computeFingerprint config.schema := by
  unfold VDB.new MetadataStore.new at hnew
  cases hschema : checkSchema config.schema with
  | error e =>
    rw [hschema] at hnew
    cases hnew
  | ok _ =>
    rw [hschema] at hnew
    cases hnew
    rfl

/-- What the constructor does: it makes an empty database, loads the snapshot, and replays the log.
-/
theorem open_parts (hopen : DurableVDB.open K config opts walDir files snapshot = .ok d) :
    ∃ (db₀ db₁ db₂ : VDB ι) (wal : Wal) (lsn : ℕ), VDB.new config = .ok db₀ ∧
      (snapshot = none ∧ lsn = 0 ∧ db₁ = db₀ ∨
        ∃ bytes rest, snapshot = some bytes ∧ db₀.load bytes = .ok ((lsn, db₁), rest)) ∧
      Wal.reopen (replayRecord K lsn) files walDir (openerOf config) opts.segmentMaxBytes db₁ =
        .ok () (wal, db₂) ∧
      d = { config, opts, db := db₂, wal, snapshot, nextLsn := max lsn wal.highestLsn + 1
            durableLsn := max lsn wal.highestLsn } := by
  unfold DurableVDB.open at hopen
  cases hnew : VDB.new (ι := ι) config with
  | error e =>
    rw [hnew] at hopen
    cases hopen
  | ok db =>
    rw [hnew] at hopen
    dsimp only at hopen
    split at hopen
    · cases hopen
    · rename_i hrec
      cases hopen
      obtain ⟨lsn, d₁, hload, hrec⟩ := Outcome.andThen_ok hrec
      have hfp : db.metadata.fingerprint = computeFingerprint config.schema := fingerprint_new hnew
      have hopener : d₁.opener = openerOf config := by
        rw [opener_loadSnapshot hload, opener, openerOf, hfp]
      obtain ⟨_, d₂, hreplay, hrec⟩ := Outcome.andThen_ok hrec
      obtain ⟨⟨wal, db₂⟩, hreopen, rfl⟩ := Outcome.mapState_ok hreplay
      cases hrec
      rw [hopener] at hreopen
      rcases loadSnapshot_parts hload with ⟨hnone, hlsn, rfl⟩ | ⟨bytes, db₁, rest, hsome,
        hbytes, rfl⟩
      · exact ⟨db, db, db₂, wal, lsn, rfl, .inl ⟨hnone, hlsn, rfl⟩, hreopen, rfl⟩
      · exact ⟨db, db₁, db₂, wal, lsn, rfl, .inr ⟨bytes, rest, hsome, hbytes⟩, hreopen, rfl⟩

/-- Behind a snapshot that has been loaded the constructor throws what the replay throws. -/
theorem open_error {db₀ db₁ : VDB ι} {lsn : ℕ} {e : Exn} (hnew : VDB.new config = .ok db₀)
    (hload : snapshot = none ∧ lsn = 0 ∧ db₁ = db₀ ∨
      ∃ bytes rest, snapshot = some bytes ∧ db₀.load bytes = .ok ((lsn, db₁), rest))
    (hopen : (DurableVDB.open K config opts walDir files snapshot : Except Exn (DurableVDB ι)) =
      .error e) :
    ∃ s, Wal.reopen (replayRecord K lsn) files walDir (openerOf config) opts.segmentMaxBytes db₁ =
      .error e s := by
  have hfp : db₀.metadata.fingerprint = computeFingerprint config.schema := fingerprint_new hnew
  unfold DurableVDB.open at hopen
  rw [hnew] at hopen
  dsimp only at hopen
  set d : DurableVDB ι :=
    { config, opts, db := db₀, snapshot, wal := { dir := walDir, opener := ⟨0, 0, 0⟩ } } with hd
  have hloads : d.loadSnapshot = .ok lsn (d.withDb db₁) := by
    rcases hload with ⟨rfl, rfl, rfl⟩ | ⟨bytes, rest, rfl, hbytes⟩
    · rfl
    · simp only [loadSnapshot, hd, hbytes]
  have hopener : (d.withDb db₁).opener = openerOf config := by
    rw [opener_loadSnapshot hloads, opener, openerOf, hd, hfp]
  split at hopen
  · rename_i e' d' hrec
    cases hopen
    unfold recover at hrec
    rw [hloads] at hrec
    rcases Outcome.andThen_error hrec with hload | ⟨_, d₁, hload, hrec⟩
    · cases hload
    cases hload
    rcases Outcome.andThen_error hrec with hreplay | ⟨_, d₂, -, hend⟩
    · obtain ⟨s, hreopen, -⟩ := Outcome.mapState_error hreplay
      rw [hopener] at hreopen
      exact ⟨s, hreopen⟩
    · cases hend
  · cases hopen

/-- **The constructor** keeps the log it finds, and credits all of it. -/
theorem open_found (hopen : DurableVDB.open K config opts walDir files snapshot = .ok d)
    (hfound : Wal.Found files (openerOf config) cs) :
    d.wal.Holds (openerOf config) (leftOf cs) ∧
      d.wal.highestLsn = (leftOf cs).records.foldl (fun m r => max m r.lsn) 0 ∧
        d.opts = opts ∧ d.durableLsn + 1 = d.nextLsn ∧ d.wal.highestLsn ≤ d.durableLsn := by
  obtain ⟨db₀, db₁, db₂, wal, lsn, -, -, hreopen, rfl⟩ := open_parts hopen
  obtain ⟨hholds, hhigh, -⟩ := hfound.reopen_ok hreopen
  exact ⟨hholds, hhigh, rfl, rfl, le_max_right ..⟩

end DurableVDB

namespace Traced

variable {ι δ : Type} [ColumnIndex ι] [Distance δ] {K : Kernels δ} {config : VDBConfig}
  {opts : Options} {walDir : Bytes} {files : Dir} {snapshot : Option Bytes} {d : DurableVDB ι}
  {cs : List Content}

/-- A database on the segments that its constructor has found. -/
def start (d : DurableVDB ι) (cs : List Content) : Traced ι δ where
  system := { durable := d }
  log := (leftOf cs).places

/-- What is found is credited whether it is on stable storage or not. -/
theorem covers_start_iff (hopen : DurableVDB.open K config opts walDir files snapshot = .ok d)
    (hfound : Wal.Found files (openerOf config) cs) :
    (start d cs : Traced ι δ).Covers d.durableLsn ↔ Settled cs := by
  obtain ⟨hholds, hhigh, -, -, hle⟩ := DurableVDB.open_found hopen hfound
  rw [← hfound.stable_iff hholds]
  refine forall₂_congr fun p hp => ?_
  have hlsn : p.record.lsn ≤ d.durableLsn := by
    obtain ⟨c, hc, hp⟩ := List.mem_flatMap.1 hp
    have hmem : p.record ∈ (leftOf cs).records :=
      List.mem_flatMap.2 ⟨c, hc, Content.record_mem hp⟩
    exact (le_foldl_max.2 hmem).trans (hhigh ▸ hle)
  constructor
  · exact fun h => (h hlsn).resolve_right id
  · exact fun h _ => .inl h

theorem inv_start (hopen : DurableVDB.open K config opts walDir files snapshot = .ok d)
    (hfound : Wal.Found files (openerOf config) cs) (hsettled : Settled cs) :
    (start d cs : Traced ι δ).Inv := by
  obtain ⟨hholds, hhigh, -, hnext, hle⟩ := DurableVDB.open_found hopen hfound
  exact
  { laid := hholds.laid
    placed := fun p hp => by
      obtain ⟨f, hl, hn⟩ := (hfound.stable_iff hholds).2 hsettled p hp
      exact .inl ⟨f, hl, fun _ => hn⟩
    noted := fun p hp => by
      obtain ⟨c, hc, hp⟩ := List.mem_flatMap.1 hp
      have hmem : p.record ∈ (leftOf cs).records :=
        List.mem_flatMap.2 ⟨c, hc, Content.record_mem hp⟩
      exact hhigh ▸ le_foldl_max.2 hmem
    high := hnext ▸ Nat.lt_succ_of_le hle
    durable := hnext ▸ Nat.lt_succ_self _
    covers := (covers_start_iff hopen hfound).2 hsettled
    calls := fun pc hpc => absurd hpc List.not_mem_nil }

/-- What holds in every state that a constructor leads to which has found nothing unsynced. -/
theorem inv_run (hopen : DurableVDB.open K config opts walDir files snapshot = .ok d)
    (hfound : Wal.Found files (openerOf config) cs) (hsettled : Settled cs) (as : List Action) :
    (as.foldl (act K) (start d cs)).Inv ∧
      (as.foldl (act K) (start d cs)).system.durable.opts = opts := by
  have hopts : d.opts = opts := (DurableVDB.open_found hopen hfound).2.2.1
  refine Run.invariant (I := fun t : Traced ι δ => t.Inv ∧ t.system.durable.opts = opts)
    (fun t a ht => ⟨ht.1.act a, ?_⟩) ⟨inv_start hopen hfound hsettled, hopts⟩ as
  have hacts := t.system.act_acts K a
  unfold Traced.act after
  dsimp only
  generalize t.system.act K a = s, t.system.logged a = r at hacts ⊢
  cases hacts with
  | starts => exact ht.2
  | idles => exact ht.2
  | moves i env pc pc' d' r _ _ hm => exact (advances_of_moves ht.1.laid hm).opts.trans ht.2
  | throws i env pc e d' _ _ hthrows =>
    exact (advances_of_throws ht.1.laid hthrows).opts.trans ht.2

/-- **What is durable, over whole runs**: whatever calls run concurrently, and whichever of the
system calls of `Env` fail, `durable_lsn_` covers only what is on stable storage, if and only if the
constructor has found nothing that is not. -/
theorem honest_iff (hopen : DurableVDB.open K config opts walDir files snapshot = .ok d)
    (hfound : Wal.Found files (openerOf config) cs) (hpolicy : opts.policy = .perOpSync) :
    (∀ as : List Action, (as.foldl (act K) (start d cs)).Honest K) ↔ Settled cs := by
  constructor
  · exact fun h => (covers_start_iff hopen hfound).1 (h []).credited
  · intro hsettled as
    obtain ⟨hinv, hopts⟩ := inv_run hopen hfound hsettled as
    exact hinv.honest (hopts.symm ▸ hpolicy)

open Database.System (onePlace smallConfig)

/-- An empty database under `PerOpSync`. -/
def waiting : DurableVDB PairIndex := { System.empty with opts := { policy := .perOpSync } }

theorem open_waiting :
    DurableVDB.open onePlace smallConfig { policy := .perOpSync } (ascii "wal") []
    none = Except.ok (ε := Exn) waiting := by
  rfl

theorem found_nothing (o : Opener) : Wal.Found [] o [] :=
  ⟨rfl, ⟨List.Pairwise.nil, nofun⟩, nofun, nofun, nofun⟩

/-- Two inserts of which the first one leads the commit of both, and a checkpoint among them. -/
def grouped : List Action :=
  [.invoke (.insert [1] {}), .invoke (.insert [1] {}), .checkpoint, .run 0 {}, .run 1 {}, .run 0 {},
    .run 1 {}, .run 0 {}, .run 2 {}, .run 0 {}, .run 1 {}, .run 0 {}, .run 1 {}, .run 2 {}]

theorem honest_grouped : (grouped.foldl (act onePlace) (start waiting [])).Honest onePlace :=
  (honest_iff open_waiting (found_nothing _) rfl).2 nofun grouped

end Traced

end Durable

end Vdb
