import Vdb.Durable.Stored

/-!
# Outages

Power may be lost between any two sections, while calls are in flight, and as often as it likes.  A
process then opens what is left of the files.

* `Chronicle.step` : an action of a call, or an outage and the process that comes after it.
* `Chronicle.survives_run` : after every run the database is what the records say that have come
  through, with all those that `durable_lsn_` has covered; and no id is given out twice.

What an outage inside `open_new_segment_` leaves is not of this kind.
-/

namespace Vdb

namespace Durable

open Metadata Database

variable {ι δ : Type} [ColumnIndex ι] [Distance δ]

/-! ### Outages -/

/-- Something happens to a database, or to the machine it runs on. -/
inductive Event where
  | act (a : Action)
  /-- Power is lost; a process opens the files with these options, of which at least what is on
  stable storage is left. -/
  | outage (kept : Bytes → ℕ) (opts : Options)

/-- The constructor returns, and the dictionaries of the database have room. -/
def Opens : Except Exn (DurableVDB ι) → Prop
  | .error _ => False
  | .ok d => d.db.Fits

instance decidableOpens : DecidablePred (Opens (ι := ι))
  | .error _ => .isFalse id
  | .ok d => inferInstanceAs (Decidable d.db.Fits)

namespace Chronicle

variable (K : Kernels δ) (config : VDBConfig) (walDir : Bytes) (c : Chronicle ι δ)

/-- What a process makes of the files after an outage. -/
def reopened (kept : Bytes → ℕ) (opts : Options) : Except Exn (DurableVDB ι) :=
  DurableVDB.open K config opts walDir (c.system.durable.wal.outage kept) c.system.durable.snapshot

/-- The records that a process does not find after an outage are no longer of the log. -/
def step : Event → Chronicle ι δ
  | .act a => c.act K a
  | .outage kept opts =>
    match c.reopened K config walDir kept opts with
    | .error _ => c
    | .ok d => { system := { durable := d }, log := c.log.filter (·.lsn < d.nextLsn) }

/-- What is asked of an event. -/
def Fair : Event → Prop
  | .act a => c.system.Careful K a ∧ c.system.Writable a
  | .outage kept opts => Opens (c.reopened K config walDir kept opts)

instance decidableFair : DecidablePred (c.Fair K config walDir)
  | .act a => inferInstanceAs (Decidable (c.system.Careful K a ∧ c.system.Writable a))
  | .outage kept opts => inferInstanceAs (Decidable (Opens (c.reopened K config walDir kept opts)))

end Chronicle

/-! ### Runs with outages -/

/-- What holds between two events. -/
structure Backed (config : VDBConfig) (c : Chronicle ι δ) : Prop where
  stored : Stored config c
  ok : c.Ok config (fun _ => none) none

omit [Distance δ] in
/-- With nothing in flight the database is what the records say. -/
theorem Chronicle.Ok.replayed {config : VDBConfig} {c : Chronicle ι δ}
    (h : c.Ok config (fun _ => none) none) (hin : c.system.durable.inFlight = 0) :
    c.Replayed config := by
  obtain ⟨s, es, hdb, hheld, -⟩ := h.ledger.held
  refine ⟨?_, h.idle hin⟩
  rw [← hdb]
  exact ⟨⟨es, hheld.holds⟩, hheld.holds.ids ▸ hheld.ids⟩

omit [Distance δ] in
/-- A checkpoint saves the database with nothing in flight. -/
theorem Chronicle.Ok.saves {config : VDBConfig} {c : Chronicle ι δ} {a : Action}
    (h : c.Ok config (fun _ => none) none) (hsaves : c.system.Saves a) : c.Replayed config := by
  cases a with
  | run i env =>
    obtain ⟨reply, hi⟩ := System.saves_iff.1 hsaves
    exact h.replayed (h.quiet reply (List.mem_of_getElem? hi))
  | _ => exact hsaves.elim

/-- **One action** keeps this. -/
theorem Backed.act {K : Kernels δ} {config : VDBConfig} {c : Chronicle ι δ} {a : Action}
    (h : Backed config c) (hc : c.system.Careful K a) (hw : c.system.Writable a) :
    Backed config (c.act K a) :=
  ⟨h.stored.act hc.bools hc.counts hw h.ok.saves, h.ok.act hc⟩

/-! ### Outages -/

namespace Chronicle

variable {K : Kernels δ} {config : VDBConfig} {walDir : Bytes} {c : Chronicle ι δ}

/-- **A process opens** what there is of a log and its snapshot. -/
theorem backed_open {opts : Options} {files : Dir} {snapshot : Option Bytes} {d : DurableVDB ι}
    {cs : List Content} {log rs : List WalRecord} {next : ExternalId} {lsn : ℕ} {db : VDB ι}
    (himage : Image config log next snapshot lsn db) (hlog : History log next)
    (hdim : config.dim < 2 ^ 32)
    (hopen : DurableVDB.open K config opts walDir files snapshot = .ok d)
    (hfound : Wal.Found files (openerOf config) cs) (hsettled : Settled cs)
    (hintact : (leftOf cs).Intact) (hfront : (leftOf cs).records <+: rs) (hsub : rs.Sublist log)
    (hnewer : rs.filter (lsn < ·.lsn) = log.filter (lsn < ·.lsn)) (hfit : d.db.Fits) :
    Backed config (⟨{ durable := d }, log.filter (·.lsn < d.nextLsn)⟩ : Chronicle ι δ) := by
  obtain ⟨hrest, hlt, hsnapshot, hlogical, himage', hlog', hfrontsub, hleft⟩ :=
    himage.reopened hlog hdim hopen hfound hfront hsub hnewer hfit
  obtain ⟨hholds, -, -, -, -⟩ := DurableVDB.open_found hopen hfound
  obtain ⟨es, hheld⟩ := hrest.inv (δ := δ)
  have hbelow : ∀ r ∈ log.filter (·.lsn < d.nextLsn), r.lsn < d.nextLsn := fun r hr =>
    of_decide_eq_true (List.mem_filter.1 hr).2
  refine ⟨⟨hlog', DurableVDB.open_positive hopen, hbelow, nofun, lsn, db, Traced.start d cs,
    leftOf cs, rfl, Traced.inv_start hopen hfound hsettled, ?_, hlt, nofun, ?_⟩,
    ok_open hopen hheld (List.pairwise_cons.1 hlog'.ordered).2 hbelow hlogical ?_⟩
  · dsimp only
    rw [hsnapshot]
    exact himage'
  · exact
    { holds := hholds
      intact := hintact
      placed := fun p hp => hp
      known := fun p hp => hfrontsub.subset (Log.mem_records.2 ⟨p, hp, rfl⟩)
      gone := nofun
      records := hfrontsub
      newer := hleft }
  · rw [hsnapshot]
    cases himage'.file with
    | empty hnew => exact .inl rfl
    | saved hlsn hsizes hrebuilds =>
      exact .inr ⟨db, lsn, rfl, hlt, himage'.rest.holds, himage'.logical⟩

/-- What a process finds after an outage: the records in front of its log, and among them those that
were durable. -/
structure Recovered (config : VDBConfig) (c : Chronicle ι δ) (d : DurableVDB ι) : Prop where
  replayed : d.db.logical = replayed WalRecord.key (WalRecord.effect config.schema.length)
    (fun _ => none) (c.log.filter (·.lsn < d.nextLsn))
  durable : ∀ r ∈ c.log, r.lsn ≤ c.system.durable.durableLsn → r.lsn < d.nextLsn
  /-- A mutator that has waited for its record finds it again. -/
  committed : c.system.durable.opts.policy = .perOpSync → ∀ pc ∈ c.system.calls, ∀ job,
    pc.committed = some job → job.mutation.toRecord job.lsn ∈ c.log ∧ job.lsn < d.nextLsn
  fresh : ∀ x ∈ (c.log.filter (·.lsn < d.nextLsn)).filterMap WalRecord.minted, x < d.db.nextExtId

/-- The database is what the records say, and so it is after an outage. -/
structure Surviving (K : Kernels δ) (config : VDBConfig) (walDir : Bytes) (c : Chronicle ι δ) :
    Prop where
  settled : ∀ x, (∀ t ∈ c.system.tasks, t.ext ≠ x) → c.system.durable.db.logical x =
    replayed WalRecord.key (WalRecord.effect config.schema.length) (fun _ => none) c.log x
  /-- An id is given to one insert. -/
  once : (c.log.filterMap WalRecord.minted).Nodup
  fresh : ∀ x ∈ c.log.filterMap WalRecord.minted, x < c.system.durable.db.nextExtId
  outage : ∀ kept opts d, c.reopened K config walDir kept opts = .ok d → d.db.Fits →
    Recovered config c d

/-- **An outage** leaves what is durable, and a process goes on from there. -/
theorem outage (h : Stored config c) (hdim : config.dim < 2 ^ 32) {kept : Bytes → ℕ}
    {opts : Options} {d : DurableVDB ι} (hopen : c.reopened K config walDir kept opts = .ok d)
    (hfit : d.db.Fits) :
    Backed config (⟨{ durable := d }, c.log.filter (·.lsn < d.nextLsn)⟩ : Chronicle ι δ) ∧
      Recovered config c d := by
  obtain ⟨lsn, db, cs, rs, himage, hfound, hsettled, hintact, hfront, hsub, hnewer, hdurable, -⟩ :=
    h.outage kept
  obtain ⟨-, hnext, -, hlogical, -, hlog', hfrontsub, -⟩ :=
    himage.reopened h.history hdim hopen hfound hfront hsub hnewer hfit
  -- what is durable comes through
  have hthrough : ∀ r ∈ c.log, r.lsn ≤ c.system.durable.durableLsn → r.lsn < d.nextLsn := by
    intro r hr hle
    by_cases hold : r.lsn ≤ lsn
    · exact hold.trans_lt hnext
    · have hmem := hfrontsub.subset (hdurable r hr (Nat.lt_of_not_le hold) hle)
      exact of_decide_eq_true (List.mem_filter.1 hmem).2
  refine ⟨backed_open himage h.history hdim hopen hfound hsettled hintact hfront hsub hnewer hfit,
    hlogical, hthrough, fun hpolicy pc hpc job hjob => ?_, hlog'.given⟩
  obtain ⟨hmem, hle⟩ := h.committed hpolicy hpc hjob
  have hlt := hthrough _ hmem (by rw [Mutation.lsn_toRecord]; exact hle)
  rw [Mutation.lsn_toRecord] at hlt
  exact ⟨hmem, hlt⟩

theorem backed_step (h : Backed config c) (hdim : config.dim < 2 ^ 32) {e : Event}
    (he : c.Fair K config walDir e) : Backed config (c.step K config walDir e) := by
  cases e with
  | act a => exact h.act he.1 he.2
  | outage kept opts =>
    have hopens : Opens (c.reopened K config walDir kept opts) := he
    dsimp only [step]
    cases hopen : c.reopened K config walDir kept opts with
    | error e =>
      rw [hopen] at hopens
      exact hopens.elim
    | ok d =>
      rw [hopen] at hopens
      exact (outage h.stored hdim hopen hopens).1

theorem surviving_of_backed (h : Backed config c) (hdim : config.dim < 2 ^ 32) :
    c.Surviving K config walDir where
  settled := h.ok.faithful.settled
  once := h.stored.history.minting.1.imp fun hlt => hlt.ne
  fresh := h.stored.history.given
  outage _ _ _ hopen hfit := (outage h.stored hdim hopen hfit).2

omit [Distance δ] in
/-- A database without a record, and without a snapshot. -/
theorem image_new {db : VDB ι} (hnew : VDB.new config = .ok db) :
    Image config [] db.nextExtId none 0 db := by
  obtain ⟨hrest, hlogical⟩ := VDB.atRest_new hnew
  exact
  { file := .empty hnew
    rest := hrest
    logical := hlogical
    older := nofun
    newer := ⟨.nil, nofun⟩
    next := le_rfl }

theorem backed_start {opts : Options} {d : DurableVDB ι} (hdim : config.dim < 2 ^ 32)
    (hopen : DurableVDB.open K config opts walDir [] none = .ok d) :
    Backed config ({ system := { durable := d } } : Chronicle ι δ) := by
  have hfound : Wal.Found [] (openerOf config) [] := Traced.found_nothing _
  obtain ⟨db₀, db₁, db₂, wal, lsn, hnew, hload, hreopen, rfl⟩ := DurableVDB.open_parts hopen
  obtain ⟨-, -, happlied⟩ := hfound.reopen_ok hreopen
  obtain ⟨-, -, rfl⟩ : none = none ∧ lsn = 0 ∧ db₁ = db₀ := by
    rcases hload with hload | ⟨bytes, rest, hsome, -⟩
    · exact hload
    · cases hsome
  cases happlied
  have himage := image_new hnew
  refine backed_open himage ⟨List.pairwise_singleton .., nofun, ⟨.nil, nofun⟩, nofun⟩ hdim hopen
    hfound nofun ?_ List.nil_prefix (List.Sublist.refl []) rfl himage.rest.fits
  exact
  { tails := fun c hc => by
      rw [(List.mem_singleton.1 hc : c = Wal.firstLog.active)]
      rfl
    closed := nofun
    header := le_rfl }

/-- **Outages.**  Whatever calls run concurrently, and wherever power is lost, the database is what
the records say that have come through. -/
theorem survives_run {opts : Options} {d : DurableVDB ι} (hdim : config.dim < 2 ^ 32)
    (hopen : DurableVDB.open K config opts walDir [] none = .ok d) (es : List Event)
    (h : Run.Along (step K config walDir) (Fair K config walDir)
      { system := { durable := d } } es) :
    (es.foldl (step K config walDir) { system := { durable := d } }).Surviving K config walDir :=
  surviving_of_backed (Run.Along.invariant (I := Backed config)
    (fun _ _ hc he => backed_step hc hdim he) (backed_start hdim hopen) h) hdim

open Database.System (onePlace smallConfig)

/-- An insert, a checkpoint and an update, all done, and an insert that has not been synced. -/
def unsynced : List Action :=
  .invoke (.insert [1] {}) :: List.replicate 10 (.run 0 {}) ++
    .checkpoint :: List.replicate 10 (.run 1 {}) ++
    .invoke (.update 0 [2] none) :: List.replicate 10 (.run 2 {}) ++
    [.invoke (.insert [3] {}), .run 3 {}, .run 3 {}]

/-- Another insert behind the outage in which that one is lost. -/
def interrupted : List Event :=
  unsynced.map .act ++ .outage (fun _ => 0) { policy := .perOpSync } ::
    .act (.invoke (.insert [4] {})) :: List.replicate 10 (.act (.run 0 {}))

theorem survives_interrupted :
    (interrupted.foldl (step onePlace smallConfig (ascii "wal"))
      { system := { durable := Traced.waiting } }).Surviving onePlace smallConfig (ascii "wal") :=
  survives_run (by decide) Traced.open_waiting interrupted (by decide +kernel)

end Chronicle

end Durable

end Vdb
