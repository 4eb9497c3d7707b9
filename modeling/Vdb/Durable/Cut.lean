import Vdb.Durable.Bookkeeping
import Vdb.Durable.Effects

/-!
# Snapshots are cuts of the log

A checkpoint keeps new prefixes out with `write_mutex_` and waits until nothing is in flight, so
that the database it saves is what the records up to the lsn of the snapshot make, and the records
behind it are those to replay.

* `Chronicle` : a system, and the records that its calls have appended.
* `Chronicle.cut_run` : in every run in which no call throws behind its prefix the snapshot is a
  cut, and each id without a mutation in flight has the point that the log says.
-/

namespace Vdb

namespace Durable

open Metadata Database

variable {ι δ : Type}

/-- The mutation of a call that has logged it and not applied it. -/
def Pc.task : Pc δ → Option (Task δ)
  | .commit job => some ⟨job, job.mutation.waiting⟩
  | .capture (.groupCommit job) => some ⟨job, job.mutation.waiting⟩
  | .fsync (.groupCommit job) _ _ => some ⟨job, job.mutation.waiting⟩
  | .synced (.groupCommit job) _ => some ⟨job, job.mutation.waiting⟩
  | .apply job => some ⟨job, job.mutation.waiting⟩
  | .applying job call => some ⟨job, some call⟩
  | _ => none

/-- The mutations that are logged and not applied. -/
def System.tasks (s : System ι δ) : List (Task δ) := s.calls.filterMap Pc.task

/-- A call that has a task counts as in flight. -/
theorem Pc.counted_of_task {pc : Pc δ} {t : Task δ} (h : pc.task = some t) : pc.Counted = true := by
  cases pc with
  | capture p => cases p <;> first | rfl | cases h
  | fsync p _ _ => cases p <;> first | rfl | cases h
  | synced p _ => cases p <;> first | rfl | cases h
  | _ => first | rfl | cases h

/-- The tasks when one call goes on. -/
theorem perm_set {calls : List (Pc δ)} {i : ℕ} {pc : Pc δ} (h : calls[i]? = some pc) :
    ∃ rest, (calls.filterMap Pc.task).Perm (pc.task.toList ++ rest) ∧
      ∀ pc' : Pc δ, ((calls.set i pc').filterMap Pc.task).Perm (pc'.task.toList ++ rest) := by
  have hcons : ∀ (q : Pc δ) (l : List (Pc δ)),
      (q :: l).filterMap Pc.task = q.task.toList ++ l.filterMap Pc.task := by
    intro q l
    cases hq : q.task with
    | none => rw [List.filterMap_cons_none hq]; rfl
    | some t => rw [List.filterMap_cons_some hq]; rfl
  induction calls generalizing i with
  | nil => cases h
  | cons q calls ih =>
    cases i with
    | zero =>
      cases h
      refine ⟨calls.filterMap Pc.task, ?_, fun pc' => ?_⟩
      · rw [hcons]
      · rw [List.set_cons_zero, hcons]
    | succ i =>
      obtain ⟨rest, hperm, hset⟩ := ih h
      -- the head is a part of the rest
      have hswap : ∀ l : List (Task δ), (q.task.toList ++ (l ++ rest)).Perm
          (l ++ (q.task.toList ++ rest)) := fun l => by
        rw [← List.append_assoc, ← List.append_assoc]
        exact List.perm_append_comm.append_right rest
      refine ⟨q.task.toList ++ rest, ?_, fun pc' => ?_⟩
      · rw [hcons]
        exact (hperm.append_left _).trans (hswap _)
      · rw [List.set_cons_succ, hcons]
        exact ((hset pc').append_left _).trans (hswap _)

variable [ColumnIndex ι] [Distance δ] {K : Kernels δ} {config : VDBConfig} {base : Logical}

section

variable {d d' : DurableVDB ι} {w : Bool} {env : Env} {pc pc' : Pc δ} {r : Option WalRecord}
  {e : Exn}
  {log : List WalRecord} {rest : List (Task δ)}

omit [ColumnIndex ι] [Distance δ] in
theorem task_behindPrefix (d : DurableVDB ι) (job : Job) :
    (d.behindPrefix job : Pc δ).task = some ⟨job, job.mutation.waiting⟩ := by
  unfold DurableVDB.behindPrefix
  split <;> rfl

omit [ColumnIndex ι] [Distance δ] in
theorem task_behindApply (d : DurableVDB ι) (job : Job) :
    (d.behindApply job : Pc δ).task = none := by
  unfold DurableVDB.behindApply
  split <;> rfl

/-- **A section that returns** keeps the ledger. -/
theorem Ledger.moves (hm : d.Moves K w env pc pc' d' r)
    (h : Ledger config base d.db (pc.task.toList ++ rest) log)
    (hnext : d.db.nextExtId + 1 < 2 ^ 64) (hapart : ∀ rec ∈ r, ∀ t ∈ rest, rec.key ≠ some t.ext)
    (hbools : ∀ rec ∈ r, rec.metadata.BoolsOk) (hfit : d'.db.Fits) :
    Ledger config base d'.db (pc'.task.toList ++ rest) (log ++ r.toList) := by
  -- most sections leave the log, the database and what is in flight alone
  have hsame : r = none → d'.db = d.db → pc'.task = pc.task →
      Ledger config base d'.db (pc'.task.toList ++ rest) (log ++ r.toList) := by
    rintro rfl hdb htask
    rw [hdb, htask, Option.toList_none, List.append_nil]
    exact h
  cases hm with
  | logs req job wal ops hw hmut hlsn happ =>
    -- no other mutation in flight is on the id that is logged
    have hfree : ∀ t ∈ rest, t.ext ≠ job.mutation.ext := by
      intro t ht heq
      exact hapart _ rfl t ht ((job.mutation.key_toRecord job.lsn).trans (congrArg some heq.symm))
    have hlog := h.logs hnext hmut hfree (hbools _ rfl)
    rw [task_behindPrefix]
    exact hlog
  | applies job call db happ =>
    have happly := h.applies K happ hfit
    rw [Option.toList_none, List.append_nil]
    cases call with
    | none =>
      rw [Option.elim_none, task_behindApply]
      exact happly
    | some call => exact happly
  | continues job call next db happ =>
    have happly := h.continues happ hfit
    rw [Option.toList_none, List.append_nil]
    cases next with
    | none =>
      rw [Option.elim_none, task_behindApply]
      exact happly
    | some call => exact happly
  | finishes job =>
    refine hsame rfl rfl ?_
    split_ifs <;> rfl
  | logsCheckpoint reply lsn wal happ => exact h.note rfl
  | captures p name hfd => exact hsame rfl rfl (by cases p <;> rfl)
  | syncs p name target hsync => exact hsame rfl rfl (by cases p <;> rfl)
  | _ => exact hsame rfl rfl rfl

/-- A call in flight throws only where it fails. -/
theorem DurableVDB.Throws.fails {s : System ι δ} (ht : s.durable.Throws K w env pc e d')
    (hc : pc.Counted = true) : s.Fails K env pc := by
  cases ht with
  | capture p e hfd =>
    cases p with
    | groupCommit job => exact hfd
    | flush job => exact hfd
    | _ => cases hc
  | sync p name target e hsync =>
    cases p with
    | groupCommit job => exact hsync
    | flush job => exact hsync
    | _ => cases hc
  | apply job e db happ =>
    intro hreturns
    rw [happ] at hreturns
    exact hreturns
  | next job call e db happ =>
    intro hreturns
    rw [happ] at hreturns
    exact hreturns
  | _ => cases hc

/-- **A section that throws** in front of the record keeps the ledger. -/
theorem Ledger.throws (ht : d.Throws K w env pc e d') (hc : pc.Counted = false)
    (h : Ledger config base d.db rest log) (hnext : d.db.nextExtId + 1 < 2 ^ 64) :
    Ledger config base d'.db rest log := by
  cases ht with
  | log req e m wal hw hmut hwal => exact h.reserved hnext req
  | apply job e db happ => cases hc
  | next job call e db happ => cases hc
  | save reply e replaced => split_ifs <;> exact h
  | _ => exact h

/-- What a section does to the counter of the lsns, to the file of the snapshot and to the count of
the calls in flight. -/
structure Steps (d d' : DurableVDB ι) (w : Bool) (pc pc' : Pc δ) (r : Option WalRecord) : Prop where
  logged : ∀ rec ∈ r, rec.lsn = d.nextLsn ∧ d.nextLsn < d'.nextLsn
  nextLsn : d.nextLsn ≤ d'.nextLsn
  snapshot : d'.snapshot = d.snapshot ∨
    (∃ reply, pc = .save reply) ∧ d'.snapshot = some (d.db.save (d.nextLsn - 1)) ∧ d'.db = d.db
  /-- No prefix runs while a call holds `write_mutex_`. -/
  inFlight : w = true → d.inFlight = 0 → d'.inFlight = 0
  saves : ∀ reply, pc' = .save reply → pc = .save reply ∨ d'.inFlight = 0

omit [ColumnIndex ι] [Distance δ] in
/-- A section that neither logs nor saves. -/
theorem Steps.plain (hnext : d'.nextLsn = d.nextLsn) (hsnapshot : d'.snapshot = d.snapshot)
    (hin : d'.inFlight ≤ d.inFlight)
    (hsaves : ∀ reply, pc' = .save reply → pc = .save reply ∨ d'.inFlight = 0) :
    Steps d d' w pc pc' none :=
  ⟨nofun, hnext.ge, .inl hsnapshot, fun _ h0 => Nat.le_zero.1 (h0 ▸ hin), hsaves⟩

omit [ColumnIndex ι] [Distance δ] in
theorem behindApply_ne_save (d : DurableVDB ι) (job : Job) (reply : Reply) :
    (d.behindApply job : Pc δ) ≠ .save reply := by
  unfold DurableVDB.behindApply
  split <;> exact nofun

theorem DurableVDB.Moves.steps (hm : d.Moves K w env pc pc' d' r) : Steps d d' w pc pc' r := by
  cases hm with
  | stays pc => exact .plain rfl rfl le_rfl fun reply h => .inl h
  | logs req job wal ops hw hmut hlsn happ =>
    refine ⟨fun rec hrec => ?_, Nat.le_succ _, .inl rfl, fun hw' => ?_, fun reply h => ?_⟩
    · obtain rfl := Option.some.inj hrec
      exact ⟨(job.mutation.lsn_toRecord job.lsn).trans hlsn, Nat.lt_succ_self _⟩
    · rw [hw] at hw'
      cases hw'
    · unfold DurableVDB.behindPrefix at h
      split at h <;> cases h
  | applies job call db happ =>
    refine .plain rfl rfl le_rfl fun reply h => ?_
    cases call with
    | none => exact absurd h (behindApply_ne_save _ _ _)
    | some call => cases h
  | continues job call next db happ =>
    refine .plain rfl rfl le_rfl fun reply h => ?_
    cases next with
    | none => exact absurd h (behindApply_ne_save _ _ _)
    | some call => cases h
  | finishes job =>
    refine .plain rfl rfl (Nat.sub_le _ _) fun reply h => ?_
    split_ifs at h
  | drained reply hin => exact .plain rfl rfl le_rfl fun _ _ => .inr hin
  | saves reply =>
    exact ⟨nofun, le_rfl, .inr ⟨⟨reply, rfl⟩, rfl, rfl⟩, fun _ h0 => h0, nofun⟩
  | logsCheckpoint reply lsn wal happ =>
    refine ⟨fun rec hrec => ?_, Nat.le_succ _, .inl rfl, fun _ h0 => h0, nofun⟩
    obtain rfl := Option.some.inj hrec
    exact ⟨rfl, Nat.lt_succ_self _⟩
  | _ => exact .plain rfl rfl le_rfl nofun

theorem DurableVDB.Throws.steps (ht : d.Throws K w env pc e d') :
    Steps d d' w pc (.threw e) none := by
  cases ht with
  | log req e m wal hw hmut hwal => exact ⟨nofun, Nat.le_succ _, .inl rfl, fun _ h0 => h0, nofun⟩
  | save reply e replaced =>
    split_ifs
    · exact ⟨nofun, le_rfl, .inr ⟨⟨reply, rfl⟩, rfl, rfl⟩, fun _ h0 => h0, nofun⟩
    · exact .plain rfl rfl le_rfl nofun
  | logCheckpoint reply lsn e wal hwal =>
    exact ⟨nofun, Nat.le_succ _, .inl rfl, fun _ h0 => h0, nofun⟩
  | _ => exact .plain rfl rfl le_rfl nofun

end

omit [ColumnIndex ι] [Distance δ] in
/-- A checkpoint saves the database with nothing in flight, whatever other calls do meanwhile. -/
theorem Steps.quiet {s : System ι δ} {i : ℕ} {pc pc' : Pc δ} {d' : DurableVDB ι}
    {r : Option WalRecord} (h : Steps s.durable d' s.writing pc pc' r) (hi : s.calls[i]? = some pc)
    (hquiet : ∀ reply, .save reply ∈ s.calls → s.durable.inFlight = 0) :
    ∀ reply, .save reply ∈ s.calls.set i pc' → d'.inFlight = 0 := by
  intro reply hmem
  rcases List.mem_or_eq_of_mem_set hmem with hmem | heq
  · refine h.inFlight ?_ (hquiet reply hmem)
    exact List.any_eq_true.2 ⟨_, hmem, rfl⟩
  · rcases h.saves reply heq.symm with rfl | hin
    · have hmem := List.mem_of_getElem? hi
      exact h.inFlight (List.any_eq_true.2 ⟨_, hmem, rfl⟩) (hquiet reply hmem)
    · exact hin

/-- What is asked of an action: no call throws behind its prefix, a mutation is on an id on which no
other one is in flight, its Bools are 0 or 1, and there is room for ids and dictionary codes. -/
structure System.Careful (K : Kernels δ) (s : System ι δ) (a : Action) : Prop where
  stays : ¬ s.Strands K a
  apart : ∀ r ∈ s.logged a, ∀ t ∈ s.tasks, r.key ≠ some t.ext
  bools : ∀ r ∈ s.logged a, r.metadata.BoolsOk
  counts : s.durable.db.nextExtId + 1 < 2 ^ 64
  fits : (s.act K a).durable.db.Fits

theorem DurableVDB.open_positive {opts : Options} {walDir : Bytes} {files : Dir}
    {kept : Option Bytes} {d : DurableVDB ι}
    (h : DurableVDB.open K config opts walDir files kept = .ok d) : 0 < d.nextLsn := by
  unfold DurableVDB.open at h
  split at h
  · cases h
  · dsimp only at h
    split at h
    · cases h
    · rename_i hrec
      cases h
      obtain ⟨lsn, d₁, hload, hrec⟩ := Outcome.andThen_ok hrec
      obtain ⟨_, d₂, hreplay, hrec⟩ := Outcome.andThen_ok hrec
      cases hrec
      exact Nat.succ_pos _

instance System.decidableCareful (s : System ι δ) (a : Action) : Decidable (s.Careful K a) :=
  decidable_of_iff (¬ s.Strands K a ∧ (∀ r ∈ s.logged a, ∀ t ∈ s.tasks, r.key ≠ some t.ext) ∧
      (∀ r ∈ s.logged a, r.metadata.BoolsOk) ∧ s.durable.db.nextExtId + 1 < 2 ^ 64 ∧
        (s.act K a).durable.db.Fits)
    ⟨fun ⟨h1, h2, h3, h4, h5⟩ => ⟨h1, h2, h3, h4, h5⟩,
      fun ⟨h1, h2, h3, h4, h5⟩ => ⟨h1, h2, h3, h4, h5⟩⟩

/-- A system, and the records that its calls have appended. -/
structure Chronicle (ι δ : Type) where
  system : System ι δ
  log : List WalRecord := []

/-- The database is what the records up to the lsn make; those behind it are to be replayed. -/
structure IsCut (config : VDBConfig) (base : Logical) (log : List WalRecord) (db : VDB ι)
    (lsn : ℕ) :
    Prop where
  behind : db.logical = replayed WalRecord.key (WalRecord.effect config.schema.length) base
    (log.filter (·.lsn ≤ lsn))
  ahead : replayed WalRecord.key (WalRecord.effect config.schema.length) db.logical
    (log.filter (lsn < ·.lsn)) =
      replayed WalRecord.key (WalRecord.effect config.schema.length) base log

namespace Chronicle

/-- An action, and the record it appends. -/
def act (K : Kernels δ) (c : Chronicle ι δ) (a : Action) : Chronicle ι δ where
  system := c.system.act K a
  log := c.log ++ (c.system.logged a).toList

variable {c : Chronicle ι δ} {kept : Option Bytes} {a : Action}

/-- The snapshot is the one found at the start or a cut of the log, and an id without a mutation in
flight has the point that the log gives it. -/
structure Faithful (config : VDBConfig) (base : Logical) (kept : Option Bytes)
    (c : Chronicle ι δ) : Prop where
  snapshot : c.system.durable.snapshot = kept ∨ ∃ (db : VDB ι) (lsn : ℕ),
    c.system.durable.snapshot = some (db.save lsn) ∧ IsCut config base c.log db lsn
  settled : ∀ x, (∀ t ∈ c.system.tasks, t.ext ≠ x) → c.system.durable.db.logical x =
    replayed WalRecord.key (WalRecord.effect config.schema.length) base c.log x

/-- What holds between the sections. -/
structure Ok (config : VDBConfig) (base : Logical) (kept : Option Bytes) (c : Chronicle ι δ) :
    Prop where
  truthful : c.system.Truthful
  ordered : (c.log.map WalRecord.lsn).Pairwise (· < ·)
  below : ∀ r ∈ c.log, r.lsn < c.system.durable.nextLsn
  positive : 0 < c.system.durable.nextLsn
  ledger : Ledger config base c.system.durable.db c.system.tasks c.log
  quiet : ∀ reply, .save reply ∈ c.system.calls → c.system.durable.inFlight = 0
  snapshot : c.system.durable.snapshot = kept ∨ ∃ (db : VDB ι) (lsn : ℕ),
    c.system.durable.snapshot = some (db.save lsn) ∧ lsn < c.system.durable.nextLsn ∧
      (∃ es, db.Holds (fun _ c rows => c.Ok rows) config es) ∧
      db.logical = replayed WalRecord.key (WalRecord.effect config.schema.length) base
        (c.log.filter (·.lsn ≤ lsn))

omit [Distance δ] in
theorem Ok.faithful (h : c.Ok config base kept) : c.Faithful config base kept where
  snapshot := h.snapshot.imp_right fun ⟨db, lsn, hsnapshot, _, _, hlogical⟩ => by
    refine ⟨db, lsn, hsnapshot, hlogical, ?_⟩
    rw [hlogical]
    funext x
    rw [← replayed_append, filter_append_filter_lt h.ordered]
  settled x hx := h.ledger.deferred.settled x fun r ⟨t, ht, htx, _⟩ => hx t ht htx

omit [Distance δ] in
/-- With nothing in flight the database is what the log says. -/
theorem Ok.idle (h : c.Ok config base kept) (hin : c.system.durable.inFlight = 0) :
    c.system.durable.db.logical =
      replayed WalRecord.key (WalRecord.effect config.schema.length) base c.log := by
  have hcount : c.system.calls.countP Pc.Counted = 0 := h.truthful.inFlight.symm.trans hin
  funext x
  refine h.ledger.deferred.settled x fun r ⟨t, ht, _⟩ => ?_
  obtain ⟨pc, hpc, htask⟩ := List.mem_filterMap.1 ht
  exact List.countP_eq_zero.1 hcount pc hpc (Pc.counted_of_task htask)

omit [Distance δ] in
/-- What one section keeps, with what it does to the ledger. -/
theorem Ok.section (h : c.Ok config base kept) {i : ℕ} {pc pc' : Pc δ} {d' : DurableVDB ι}
    {r : Option WalRecord} (hi : c.system.calls[i]? = some pc)
    (htruthful : (⟨d', c.system.calls.set i pc'⟩ : System ι δ).Truthful)
    (hledger : Ledger config base d'.db (⟨d', c.system.calls.set i pc'⟩ : System ι δ).tasks
      (c.log ++ r.toList))
    (hsteps : Steps c.system.durable d' c.system.writing pc pc' r) :
    Ok config base kept ⟨⟨d', c.system.calls.set i pc'⟩, c.log ++ r.toList⟩ where
  truthful := htruthful
  ordered := by
    rw [List.map_append]
    refine List.pairwise_append.2 ⟨h.ordered, ?_, fun m hm n hn => ?_⟩
    · cases r <;> simp
    · obtain ⟨q, hq, rfl⟩ := List.mem_map.1 hm
      obtain ⟨rec, hrec, rfl⟩ := List.mem_map.1 hn
      rw [(hsteps.logged rec (Option.mem_toList.1 hrec)).1]
      exact h.below q hq
  below q hq := by
    rcases List.mem_append.1 hq with hq | hq
    · exact (h.below q hq).trans_le hsteps.nextLsn
    · obtain ⟨hlsn, hlt⟩ := hsteps.logged q (Option.mem_toList.1 hq)
      exact hlsn ▸ hlt
  positive := h.positive.trans_le hsteps.nextLsn
  ledger := hledger
  quiet := hsteps.quiet hi h.quiet
  snapshot := by
    -- a record of now is behind every snapshot of before
    have hnew : ∀ lsn < c.system.durable.nextLsn, (c.log ++ r.toList).filter (·.lsn ≤ lsn) =
        c.log.filter (·.lsn ≤ lsn) := by
      intro lsn hlt
      rw [List.filter_append, (List.filter_eq_nil_iff (l := r.toList)).2,
        List.append_nil]
      intro rec hrec
      have hlsn := (hsteps.logged rec (Option.mem_toList.1 hrec)).1
      simpa [hlsn] using hlt
    rcases hsteps.snapshot with hsame | ⟨⟨reply, rfl⟩, hsaved, -⟩
    · rw [hsame]
      refine h.snapshot.imp_right fun ⟨db, lsn, hsnapshot, hlt, hholds, hlogical⟩ => ?_
      exact ⟨db, lsn, hsnapshot, hlt.trans_le hsteps.nextLsn, hholds,
        by rw [hnew lsn hlt, hlogical]⟩
    · have hlt : c.system.durable.nextLsn - 1 < c.system.durable.nextLsn :=
        Nat.sub_one_lt h.positive.ne'
      obtain ⟨s, es, hdb, hheld, -⟩ := h.ledger.held
      refine .inr ⟨_, _, hsaved, hlt.trans_le hsteps.nextLsn, ⟨es, hdb ▸ hheld.holds⟩, ?_⟩
      rw [hnew _ hlt, h.idle (h.quiet reply (List.mem_of_getElem? hi)), List.filter_eq_self.2]
      exact fun q hq => decide_eq_true (Nat.le_sub_one_of_lt (h.below q hq))

/-- **One action** keeps this. -/
theorem Ok.act (h : c.Ok config base kept) (ha : c.system.Careful K a) :
    (c.act K a).Ok config base kept := by
  have htruthful := h.truthful.act (K := K) ha.stays
  have hapart := ha.apart
  have hbools := ha.bools
  have hfits := ha.fits
  have hacts := c.system.act_acts K a
  unfold Chronicle.act
  generalize hs : c.system.act K a = s, hr : c.system.logged a = r at *
  cases hacts with
  | starts pc hpc =>
    have htask : pc.task = none ∧ ∀ reply, pc ≠ .save reply := by
      rcases hpc with ⟨req, rfl⟩ | rfl | rfl
      · cases req <;> exact ⟨rfl, nofun⟩
      · exact ⟨rfl, nofun⟩
      · exact ⟨rfl, nofun⟩
    have htasks : (c.system.calls ++ [pc]).filterMap Pc.task = c.system.tasks := by
      rw [List.filterMap_append, List.filterMap_cons_none htask.1, List.filterMap_nil,
        List.append_nil]
      rfl
    rw [Option.toList_none, List.append_nil]
    refine { h with truthful := htruthful, ledger := ?_, quiet := fun reply hmem => ?_ }
    · unfold System.tasks
      rw [htasks]
      exact h.ledger
    · rcases List.mem_append.1 hmem with hmem | hmem
      · exact h.quiet reply hmem
      · exact absurd (List.mem_singleton.1 hmem).symm (htask.2 reply)
  | idles =>
    rw [Option.toList_none, List.append_nil]
    exact h
  | moves i env pc pc' d' r hrun hi hm =>
    obtain ⟨rest, hperm, hset⟩ := perm_set hi
    refine h.section hi htruthful ?_ hm.steps
    refine ((h.ledger.perm hperm).moves hm ha.counts (fun rec hrec t ht => ?_) hbools hfits).perm
      (hset pc').symm
    exact hapart rec hrec t (hperm.mem_iff.2 (List.mem_append_right _ ht))
  | throws i env pc e d' hrun hi ht =>
    obtain ⟨rest, hperm, hset⟩ := perm_set hi
    -- no call throws behind its prefix, so that this one has not been in flight
    have hcounted : pc.Counted = false := by
      by_contra hc
      rw [Bool.not_eq_false] at hc
      subst hrun
      exact ha.stays ⟨pc, hi, ht.fails hc⟩
    have htask : pc.task = none := by
      by_contra hne
      obtain ⟨t, htask⟩ := Option.ne_none_iff_exists'.1 hne
      rw [Pc.counted_of_task htask] at hcounted
      cases hcounted
    rw [htask] at hperm
    refine h.section hi htruthful ?_ ht.steps
    rw [Option.toList_none, List.append_nil]
    exact ((h.ledger.perm hperm).throws ht hcounted ha.counts).perm (hset (.threw e)).symm

/-- A database that has been opened, and the records that it has been made of. -/
theorem ok_open {opts : Options} {walDir : Bytes} {files : Dir} {found : Option Bytes}
    {d : DurableVDB ι} {es : List Entry} {log : List WalRecord}
    (hopen : DurableVDB.open K config opts walDir files found = .ok d)
    (hheld : ({ db := d.db } : Database.System ι δ).Inv (fun _ c rows => c.Ok rows) config es)
    (hordered : (log.map WalRecord.lsn).Pairwise (· < ·)) (hbelow : ∀ r ∈ log, r.lsn < d.nextLsn)
    (hlogical : d.db.logical =
      replayed WalRecord.key (WalRecord.effect config.schema.length) base log)
    (hsnapshot : d.snapshot = kept ∨ ∃ (db : VDB ι) (lsn : ℕ), d.snapshot = some (db.save lsn) ∧
      lsn < d.nextLsn ∧ (∃ es, db.Holds (fun _ c rows => c.Ok rows) config es) ∧ db.logical =
        replayed WalRecord.key (WalRecord.effect config.schema.length) base
          (log.filter (·.lsn ≤ lsn))) :
    Ok config base kept ({ system := { durable := d }, log } : Chronicle ι δ) := by
  obtain ⟨hin, hsync⟩ := DurableVDB.open_idle hopen
  exact
  { truthful := System.truthful_of hin fun hs => by
      rw [hsync] at hs
      cases hs
    ordered := hordered
    below := hbelow
    positive := DurableVDB.open_positive hopen
    ledger :=
    { apart := List.nodup_nil
      bools := nofun
      runs := nofun
      deferred := (Deferred.start hlogical).congr fun x r => ⟨nofun, False.elim⟩
      held := ⟨_, es, rfl, hheld, nofun, fun _ _ => rfl⟩ }
    quiet := nofun
    snapshot := hsnapshot }

theorem ok_start {opts : Options} {walDir : Bytes} {files : Dir} {d : DurableVDB ι}
    {es : List Entry}
    (hopen : DurableVDB.open K config opts walDir files kept = .ok d)
    (hheld : ({ db := d.db } : Database.System ι δ).Inv (fun _ c rows => c.Ok rows) config es) :
    Ok config d.db.logical d.snapshot ({ system := { durable := d } } : Chronicle ι δ) :=
  ok_open hopen hheld .nil nofun rfl (.inl rfl)

/-- **Snapshots are cuts.**  From a database whose rows agree, whatever calls run concurrently, the
snapshot is a cut of the log, and nothing is missing from the database but what is in flight. -/
theorem cut_run {opts : Options} {walDir : Bytes} {files : Dir} {d : DurableVDB ι} {es : List Entry}
    (hopen : DurableVDB.open K config opts walDir files kept = .ok d)
    (hheld : ({ db := d.db } : Database.System ι δ).Inv (fun _ c rows => c.Ok rows) config es)
    (as : List Action) (h : Run.Along (act K) (fun c a => c.system.Careful K a)
      { system := { durable := d } } as) :
    (as.foldl (act K) { system := { durable := d } }).Faithful config d.db.logical d.snapshot :=
  (h.invariant (fun _ _ hc ha => hc.act ha) (ok_start hopen hheld)).faithful

open Database.System (onePlace smallConfig small)

/-- An insert, and a checkpoint that an update waits for between its drain and its end. -/
def snapshotted : List Action :=
  .invoke (.insert [1] {}) :: List.replicate 10 (.run 0 {}) ++
    [.checkpoint, .run 1 {}, .invoke (.update 0 [2] none), .run 2 {}, .run 2 {}] ++
    List.replicate 8 (.run 1 {}) ++ List.replicate 3 (.run 2 {})

theorem cut_snapshotted : (snapshotted.foldl (act onePlace)
    { system := { durable := System.empty } }).Faithful smallConfig System.empty.db.logical none :=
  cut_run System.open_empty
    (Database.System.inv_new Database.System.new_small nofun) snapshotted (by decide +kernel)

end Chronicle

end Durable

end Vdb
