import Vdb.Durable.Progress
import Vdb.Durable.WriteFile

/-!
# Outages inside a save

Between the sections of the calls a chronicle saves a snapshot at one blow.  On a machine it is
written by `write_file_atomic`, with sections of other calls between its system calls; each of these
may fail, and power may be lost behind any of them.

* `Machine` : a chronicle with the directory of its snapshot.
* `Machine.atomic_run` : as long as the directory can be synced, a run of the machine is one of the
  chronicle, and what is found after an outage is what was durable.
-/

namespace Vdb

namespace Durable

open Metadata Database

variable {ι δ : Type} [ColumnIndex ι] [Distance δ]

/-! ### The sections of other calls -/

namespace System

variable {K : Kernels δ} {s : System ι δ} {a : Action} {i j : ℕ} {pc pc' : Pc δ} {reply : Reply}

theorem snapshot_act (ha : ¬ s.Saves a) :
    (s.act K a).durable.snapshot = s.durable.snapshot := by
  have hsave : ∀ {i env pc}, a = .run i env → s.calls[i]? = some pc →
      ¬ ∃ reply, pc = .save reply := by
    rintro i env pc rfl hi ⟨reply, rfl⟩
    exact ha (System.saves_iff.2 ⟨reply, hi⟩)
  have hacts := s.act_acts K a
  generalize s.act K a = s', s.logged a = r at hacts
  cases hacts with
  | starts pc hpc => rfl
  | idles => rfl
  | moves i env pc pc' d' r hrun hi hm =>
    exact hm.steps.snapshot.resolve_right fun h => hsave hrun hi h.1
  | throws i env pc e d' hrun hi ht =>
    exact ht.steps.snapshot.resolve_right fun h => hsave hrun hi h.1

/-- While a call saves the database the sections of the others leave it alone. -/
theorem Alive.saving (h : s.Alive) (hi : s.calls[i]? = some (.save reply)) (ha : ¬ s.Saves a) :
    (s.act K a).calls[i]? = some (.save reply) ∧ (s.act K a).durable.db = s.durable.db ∧
      (s.act K a).durable.nextLsn = s.durable.nextLsn := by
  have hmem := List.mem_of_getElem? hi
  have hlt := (List.getElem?_eq_some_iff.1 hi).1
  have hwriting : s.writing = true := List.any_eq_true.2 ⟨_, hmem, rfl⟩
  -- nothing is in flight
  have hcounted : ∀ pc ∈ s.calls, pc.Counted = false := by
    rcases h.accounts with ⟨htruthful, hquiet⟩ | hstuck
    · have hzero : s.calls.countP Pc.Counted = 0 := 
        htruthful.inFlight.symm.trans (hquiet reply hmem)
      exact fun pc hpc => Bool.eq_false_of_not_eq_true (List.countP_eq_zero.1 hzero pc hpc)
    · exact absurd hmem (hstuck.drains reply)
  have hother : ∀ {j env pc}, a = .run j env → s.calls[j]? = some pc → j ≠ i := by
    rintro j env pc rfl hj rfl
    exact ha (System.saves_iff.2 ⟨reply, hi⟩)
  have hacts := s.act_acts K a
  generalize s.act K a = s', s.logged a = r at hacts ⊢
  cases hacts with
  | starts pc hpc => exact ⟨(List.getElem?_append_left hlt).trans hi, rfl, rfl⟩
  | idles => exact ⟨hi, rfl, rfl⟩
  | moves j env pc pc' d' r hrun hj hm =>
    have hne := hother hrun hj
    refine ⟨(List.getElem?_set_ne hne).trans hi, ?_⟩
    cases hm with
    | logs req job wal ops hw hmut hlsn happ => exact absurd (hwriting.symm.trans hw) nofun
    | applies job call db happ => exact absurd (hcounted _ (List.mem_of_getElem? hj)) nofun
    | continues job call next db happ => exact absurd (hcounted _ (List.mem_of_getElem? hj)) nofun
    | saves reply => exact absurd (alone h.mutex hi trivial hj trivial) hne
    | logsCheckpoint reply lsn wal happ => exact absurd (alone h.mutex hi trivial hj trivial) hne
    | _ => exact ⟨rfl, rfl⟩
  | throws j env pc e d' hrun hj ht =>
    have hne := hother hrun hj
    refine ⟨(List.getElem?_set_ne hne).trans hi, ?_⟩
    cases ht with
    | log req e m wal hw hmut hwal => exact absurd (hwriting.symm.trans hw) nofun
    | apply job e db happ => exact absurd (hcounted _ (List.mem_of_getElem? hj)) nofun
    | next job call e db happ => exact absurd (hcounted _ (List.mem_of_getElem? hj)) nofun
    | save reply e replaced => exact absurd (alone h.mutex hi trivial hj trivial) hne
    | logCheckpoint reply lsn e wal hwal => exact absurd (alone h.mutex hi trivial hj trivial) hne
    | _ => exact ⟨rfl, rfl⟩

end System

/-! ### The machine -/

/-- A chronicle, and the directory that its snapshot is written in. -/
structure Machine (ι δ : Type) where
  chronicle : Chronicle ι δ
  /-- Only the call that holds `write_mutex_` writes. -/
  saver : Saver := {}

/-- The save takes place, or throws. -/
def saveEnv : Except Exn Unit → Env
  | .ok _ => {}
  | .error e => { save := some ⟨e, false⟩ }

namespace Machine

inductive Event where
  | act (a : Action)
  /-- The `i`-th call makes the next system call of its save. -/
  | write (i : ℕ) (env : SysEnv)
  /-- Power is lost, and a process opens what is left. -/
  | outage (kept : Bytes → ℕ) (opts : Options) (found part : ℕ) (tmp : Option File)

variable (K : Kernels δ) (config : VDBConfig) (walDir : Bytes) (m : Machine ι δ)

/-- What a save writes. -/
def image : Bytes :=
  m.chronicle.system.durable.db.save (m.chronicle.system.durable.nextLsn - 1)

/-- A save has put its image together before it makes its first system call. -/
def begun : Saver := m.saver.act (.save m.image)

/-- What a process makes of the files after an outage. -/
def reopened (kept : Bytes → ℕ) (opts : Options) (dir : SnapshotDir) : Except Exn (DurableVDB ι) :=
  DurableVDB.open K config opts walDir (m.chronicle.system.durable.wal.outage kept)
    (dir.path.map File.bytes)

def step : Event → Machine ι δ
  -- a save runs by its system calls
  | .act a => if m.chronicle.system.Saves a then m else { m with chronicle := m.chronicle.act K a }
  | .write i env =>
    if m.chronicle.system.Saves (.run i {}) then
      { chronicle :=
          match m.begun.reply (.run env) with
          | none => m.chronicle
          | some result => m.chronicle.act K (.run i (saveEnv result))
        saver := m.begun.act (.run env) }
    else m
  | .outage kept opts found part tmp =>
    let dir := m.saver.dir.outage found part tmp
    match m.reopened K config walDir kept opts dir with
    | .error _ => m
    | .ok d =>
      { chronicle := {
          system := { durable := d }, log := m.chronicle.log.filter (·.lsn < d.nextLsn) }
        saver := { dir } }

/-- The calls that are about to save may do so. -/
def SavesFair : Prop := ∀ i < m.chronicle.system.calls.length,
  m.chronicle.system.Saves (.run i {}) → m.chronicle.Fair K config walDir (.act (.run i {}))

/-- What is asked of an event: what is asked of those of the chronicle, and that the directory can
be synced. -/
def Fair : Event → Prop
  | .act a => m.chronicle.Fair K config walDir (.act a)
  | .write i env => m.chronicle.Fair K config walDir (.act (.run i {})) ∧
    (m.saver.call.any (fun c => c.2.Replaced) = true → env.fails = false)
  | .outage kept opts found part tmp => m.SavesFair K config walDir ∧
    Opens (m.reopened K config walDir kept opts (m.saver.dir.outage found part tmp))

instance decidableSavesFair : Decidable (m.SavesFair K config walDir) :=
  inferInstanceAs (Decidable (∀ i < m.chronicle.system.calls.length,
    m.chronicle.system.Saves (.run i {}) → m.chronicle.Fair K config walDir (.act (.run i {}))))

instance decidableFair : DecidablePred (m.Fair K config walDir)
  | .act a => inferInstanceAs (Decidable (m.chronicle.Fair K config walDir (.act a)))
  | .write i env => inferInstanceAs (Decidable (
      m.chronicle.Fair K config walDir (.act (.run i {})) ∧
        (m.saver.call.any (fun c => c.2.Replaced) = true → env.fails = false)))
  | .outage kept opts found part tmp => inferInstanceAs (Decidable (m.SavesFair K config walDir ∧
      Opens (m.reopened K config walDir kept opts (m.saver.dir.outage found part tmp))))

/-! ### Between two events -/

variable {K config walDir m} {i : ℕ} {reply : Reply} {c : Chronicle ι δ}

/-- A save that goes through, or that throws. -/
theorem act_save (hi : c.system.calls[i]? = some (.save reply)) :
    c.act K (.run i {}) = { c with system := {
      durable := { c.system.durable with
        snapshot := some (c.system.durable.db.save (c.system.durable.nextLsn - 1)) }
      calls := c.system.calls.set i (.logCheckpoint reply (c.system.durable.nextLsn - 1)) } } := by
  simp [Chronicle.act, System.act, System.logged, System.runCall, hi, DurableVDB.logged,
    DurableVDB.runSection, DurableVDB.saveSnapshot, Outcome.andThen]

theorem act_save_error (hi : c.system.calls[i]? = some (.save reply)) (e : Exn) :
    c.act K (.run i (saveEnv (.error e))) =
      { c with system := { c.system with calls := c.system.calls.set i (.threw e) } } := by
  simp [Chronicle.act, System.act, System.logged, System.runCall, hi, DurableVDB.logged,
    DurableVDB.runSection, DurableVDB.saveSnapshot, Outcome.andThen, saveEnv]

theorem fair_save (hi : c.system.calls[i]? = some (.save reply))
    (h : c.Fair K config walDir (.act (.run i {}))) (result : Except Exn Unit) :
    c.Fair K config walDir (.act (.run i (saveEnv result))) := by
  obtain ⟨hcareful, hwritable⟩ := h
  have hlogged : ∀ env, c.system.logged (.run i env) = none := fun env => by
    simp [System.logged, hi, DurableVDB.logged]
  have hok : (c.system.act K (.run i {})).durable.db = c.system.durable.db :=
    congrArg (fun c => c.system.durable.db) (act_save hi)
  cases result with
  | ok _ => exact ⟨hcareful, hwritable⟩
  | error e =>
    have herror : (c.system.act K (.run i (saveEnv (.error e)))).durable.db = c.system.durable.db :=
      congrArg (fun c => c.system.durable.db) (act_save_error hi e)
    refine ⟨⟨?_, ?_, ?_, hcareful.counts, ?_⟩, rfl, ?_, hwritable.segments, hwritable.saves⟩
    · rintro ⟨pc, hpc, hfails⟩
      rw [hi] at hpc
      cases hpc
      exact hfails
    · rw [hlogged]
      exact nofun
    · rw [hlogged]
      exact nofun
    · rw [herror, ← hok]
      exact hcareful.fits
    · rw [hlogged]
      exact nofun

/-- The register of the file has the snapshot, and the image in front of it once the save in
progress has renamed its file. -/
structure Pictures (m : Machine ι δ) (r : Register) : Prop where
  values : r.values =
    if r.call.any Prod.snd then [some m.image, m.chronicle.system.durable.snapshot]
    else [m.chronicle.system.durable.snapshot]
  saving : ∀ c ∈ r.call, c.1 = m.image ∧
    ∃ (i : ℕ) (reply : Reply), m.chronicle.system.calls[i]? = some (.save reply)

/-- What holds between two events of a machine. -/
structure Ok (config : VDBConfig) (m : Machine ι δ) : Prop where
  backed : Backed config m.chronicle
  alive : m.chronicle.system.Alive
  shows : ∃ r, m.saver.Shows r ∧ m.Pictures r

/-- **A section of a call** that does not save. -/
theorem Ok.act (h : m.Ok config) {a : Action} (ha : ¬ m.chronicle.system.Saves a)
    (hcareful : m.chronicle.system.Careful K a) (hwritable : m.chronicle.system.Writable a) :
    ({ m with chronicle := m.chronicle.act K a } : Machine ι δ).Ok config := by
  have hsnapshot : (m.chronicle.act K a).system.durable.snapshot = _ := System.snapshot_act ha
  obtain ⟨r, hshows, hvalues, hsaving⟩ := h.shows
  have hkeeps : ∀ c ∈ r.call, (Machine.mk (m.chronicle.act K a) m.saver).image = m.image ∧
      ∃ (i : ℕ) (reply : Reply), (m.chronicle.act K a).system.calls[i]? = some (.save reply) := by
    intro c hc
    obtain ⟨-, i, reply, hi⟩ := hsaving c hc
    obtain ⟨hcall, hdb, hnext⟩ := h.alive.saving (K := K) hi ha
    refine ⟨?_, i, reply, hcall⟩
    show VDB.save _ _ = VDB.save _ _
    rw [Chronicle.act, hdb, hnext]
  refine ⟨h.backed.act hcareful hwritable, h.alive.act a, r, hshows, ?_, fun c hc => ?_⟩
  · rw [hvalues, hsnapshot]
    cases hcall : r.call with
    | none => rfl
    | some c => rw [(hkeeps c hcall).1]
  · exact ⟨(hsaving c hc).1.trans (hkeeps c hc).1.symm, (hkeeps c hc).2⟩

/-- **A system call** of a save: the save goes on, takes place or throws. -/
theorem Ok.write (h : m.Ok config) {env : SysEnv}
    (hi : m.chronicle.system.calls[i]? = some (.save reply))
    (hfair : m.Fair K config walDir (.write i env)) :
    (m.step K config walDir (.write i env)).Ok config := by
  obtain ⟨hfair, hsettles⟩ := hfair
  obtain ⟨r, hshows, hvalues, hsaving⟩ := h.shows
  have hstep : m.step K config walDir (.write i env) = {
      chronicle :=
        match m.begun.reply (.run env) with
        | none => m.chronicle
        | some result => m.chronicle.act K (.run i (saveEnv result))
      saver := m.begun.act (.run env) } := if_pos (System.saves_iff.2 ⟨reply, hi⟩)
  -- the save is in progress
  obtain ⟨r', replaced, hcall, hreplaced, hvalues', hshows'⟩ : ∃ (r' : Register) (replaced : Bool),
      r'.call = some (m.image, replaced) ∧ r.call.any Prod.snd = replaced ∧
        r'.values = r.values ∧ m.begun.Shows r' := by
    obtain ⟨r', hbegins, hshows'⟩ := hshows.act (.save m.image)
    cases hbegins with
    | save vs => exact ⟨⟨vs, some (m.image, false)⟩, false, rfl, rfl, rfl, hshows'⟩
    | busy vs call =>
      obtain ⟨bytes, replaced⟩ := call
      obtain ⟨rfl, -⟩ := hsaving _ rfl
      exact ⟨_, _, rfl, rfl, rfl, hshows'⟩
  obtain ⟨r'', hruns, hshows''⟩ := hshows'.act (.run env)
  obtain ⟨vs, call⟩ := r'
  obtain rfl : call = some (m.image, replaced) := hcall
  have hvs : vs = if replaced then [some m.image, m.chronicle.system.durable.snapshot]
      else [m.chronicle.system.durable.snapshot] := by
    rw [← hreplaced, ← hvalues]
    exact hvalues'
  have hstays : ∀ c ∈ some (m.image, replaced), c.1 = m.image ∧
      ∃ (i : ℕ) (reply : Reply), m.chronicle.system.calls[i]? = some (.save reply) :=
    fun c hc => by cases hc; exact ⟨rfl, i, reply, hi⟩
  have hflag : m.saver.call.any (fun c => c.2.Replaced) = replaced := by
    rw [← hreplaced, hshows.call, Option.any_map]
  rw [hstep]
  generalize m.begun.reply (.run env) = result at hruns
  cases hruns with
  | goes => exact ⟨h.backed, h.alive, _, hshows'', hvs, hstays⟩
  | replace =>
    refine ⟨h.backed, h.alive, _, hshows'', ?_, fun c hc => by cases hc; exact ⟨rfl, i, reply, hi⟩⟩
    rw [hvs]
    rfl
  | throw _ _ _ e =>
    have hfair' := fair_save hi hfair (.error e)
    dsimp only
    refine ⟨h.backed.act hfair'.1 hfair'.2, h.alive.act (.run i _), _, hshows'', ?_, nofun⟩
    rw [act_save_error hi e, hvs]
    rfl
  | settle rest =>
    dsimp only
    refine ⟨h.backed.act hfair.1 hfair.2, h.alive.act (.run i {}), _, hshows'', ?_, nofun⟩
    show _ = [(m.chronicle.act K (.run i {})).system.durable.snapshot]
    rw [act_save hi]
    rfl
  | unsettled _ _ _ hfails =>
    rw [hsettles hflag] at hfails
    cases hfails

/-- The chronicle whose snapshot a process finds after an outage: a save takes place first, or does
not. -/
def Found (K : Kernels δ) (m : Machine ι δ) (c : Chronicle ι δ) : Prop :=
  c = m.chronicle ∨ ∃ (i : ℕ) (reply : Reply),
    m.chronicle.system.calls[i]? = some (.save reply) ∧ c = m.chronicle.act K (.run i {})

/-- **An outage** anywhere in a save is one in front of the save or behind it. -/
theorem Ok.found (h : m.Ok config) (found part : ℕ) (tmp : Option File) : ∃ c, m.Found K c ∧
    (m.saver.dir.outage found part tmp).path.map File.bytes = c.system.durable.snapshot ∧
      (⟨m.saver.dir.outage found part tmp, none⟩ : Saver).Shows
        ⟨[c.system.durable.snapshot], none⟩ := by
  obtain ⟨r, hshows, hvalues, hsaving⟩ := h.shows
  obtain ⟨r', hstep, hshows'⟩ := hshows.act (.outage found part tmp)
  cases hstep with
  | outage vs v call _ _ _ hmem =>
    have hpath : v = (m.saver.dir.outage found part tmp).path.map File.bytes :=
      (List.cons.inj hshows'.values).1
    cases call with
    | none =>
      have hvs : vs = [m.chronicle.system.durable.snapshot] := hvalues
      obtain rfl : v = m.chronicle.system.durable.snapshot := by simpa [hvs] using hmem
      exact ⟨_, .inl rfl, hpath.symm, hshows'⟩
    | some call =>
      obtain ⟨bytes, replaced⟩ := call
      obtain ⟨-, i, reply, hi⟩ := hsaving _ rfl
      obtain rfl | ⟨-, rfl⟩ : v = m.chronicle.system.durable.snapshot ∨
          replaced = true ∧ v = some m.image := by
        have hvs : vs = if replaced then [some m.image, m.chronicle.system.durable.snapshot]
            else [m.chronicle.system.durable.snapshot] := hvalues
        cases replaced with
        | false => exact .inl (by simpa [hvs] using hmem)
        | true =>
          have hor : v = some m.image ∨ v = m.chronicle.system.durable.snapshot := by
            simpa [hvs] using hmem
          exact hor.symm.imp_right fun h => ⟨rfl, h⟩
      · exact ⟨_, .inl rfl, hpath.symm, hshows'⟩
      · have hsaved : (m.chronicle.act K (.run i {})).system.durable.snapshot = some m.image := by
          rw [act_save hi]
          rfl
        refine ⟨_, .inr ⟨i, reply, hi, rfl⟩, ?_, ?_⟩
        · rw [hsaved, ← hpath]
        · rw [hsaved]
          exact hshows'

theorem fair_tame {e : Durable.Event} (h : c.Fair K config walDir e) :
    c.Tame K config walDir e := by
  cases e with
  | act a => exact ⟨⟨h.1.apart, h.1.bools, h.1.counts, h.1.fits⟩, h.2⟩
  | outage kept opts => exact h

/-- What holds between two events of the chronicle. -/
structure Ready (config : VDBConfig) (c : Chronicle ι δ) : Prop where
  backed : Backed config c
  alive : c.system.Alive

theorem Ready.step (h : Ready config c) (hdim : config.dim < 2 ^ 32) {e : Durable.Event}
    (he : c.Fair K config walDir e) : Ready config (c.step K config walDir e) :=
  ⟨Chronicle.backed_step h.backed hdim he,
    Chronicle.alive_step ⟨h.backed.stored, .inl h.backed.ok⟩ h.alive hdim (fair_tame he)⟩

theorem Ready.run (h : Ready config c) (hdim : config.dim < 2 ^ 32) {es : List Durable.Event}
    (hes : Run.Along (Chronicle.step K config walDir) (Chronicle.Fair K config walDir) c es) :
    Ready config (es.foldl (Chronicle.step K config walDir) c) :=
  hes.invariant (fun _ _ hc he => hc.step hdim he) h

theorem Found.fair (h : m.Found K c) (hfair : m.SavesFair K config walDir) :
    ∃ es : List Durable.Event, Run.Along (Chronicle.step K config walDir)
      (Chronicle.Fair K config walDir) m.chronicle es ∧
        es.foldl (Chronicle.step K config walDir) m.chronicle = c ∧ c.log = m.chronicle.log ∧
          c.system.durable.wal = m.chronicle.system.durable.wal := by
  rcases h with rfl | ⟨i, reply, hi, rfl⟩
  · exact ⟨[], trivial, rfl, rfl, rfl⟩
  · have hlt := (List.getElem?_eq_some_iff.1 hi).1
    refine ⟨[.act (.run i {})], ⟨hfair i hlt (System.saves_iff.2 ⟨reply, hi⟩), trivial⟩,
      rfl, ?_, ?_⟩
    · rw [act_save hi]
    · rw [act_save hi]

/-- **One event** of a machine is one or two of the chronicle, or none. -/
theorem Ok.step (h : m.Ok config) (hdim : config.dim < 2 ^ 32) {e : Event}
    (he : m.Fair K config walDir e) : (m.step K config walDir e).Ok config ∧
      ∃ es : List Durable.Event, Run.Along (Chronicle.step K config walDir)
        (Chronicle.Fair K config walDir) m.chronicle es ∧
          es.foldl (Chronicle.step K config walDir) m.chronicle =
            (m.step K config walDir e).chronicle := by
  cases e with
  | act a =>
    dsimp only [Machine.step]
    split_ifs with ha
    · exact ⟨h, [], trivial, rfl⟩
    · exact ⟨h.act ha he.1 he.2, [.act a], ⟨he, trivial⟩, rfl⟩
  | write i env =>
    by_cases hs : m.chronicle.system.Saves (.run i {})
    · obtain ⟨reply, hi⟩ := System.saves_iff.1 hs
      refine ⟨h.write hi he, ?_⟩
      rw [Machine.step, if_pos hs]
      dsimp only
      cases m.begun.reply (.run env) with
      | none => exact ⟨[], trivial, rfl⟩
      | some result =>
        exact ⟨[.act (.run i (saveEnv result))], ⟨fair_save hi he.1 result, trivial⟩, rfl⟩
    · rw [Machine.step, if_neg hs]
      exact ⟨h, [], trivial, rfl⟩
  | outage kept opts found part tmp =>
    obtain ⟨hsaves, hopens⟩ := he
    obtain ⟨c, hfound, hpath, hshows⟩ := h.found (K := K) found part tmp
    obtain ⟨es, halong, hes, hlog, hwal⟩ := hfound.fair hsaves
    have hreopened : m.reopened K config walDir kept opts (m.saver.dir.outage found part tmp) =
        c.reopened K config walDir kept opts := by
      rw [Machine.reopened, Chronicle.reopened, hpath, hwal]
    have hready : Ready config c := hes ▸ Ready.run ⟨h.backed, h.alive⟩ hdim halong
    have hfair : c.Fair K config walDir (.outage kept opts) := by
      show Opens (c.reopened K config walDir kept opts)
      rwa [← hreopened]
    obtain ⟨d, hopen⟩ : ∃ d, c.reopened K config walDir kept opts = .ok d := by
      cases hopen : c.reopened K config walDir kept opts with
      | error e =>
        rw [hreopened, hopen] at hopens
        exact hopens.elim
      | ok d => exact ⟨d, rfl⟩
    have hstep : m.step K config walDir (.outage kept opts found part tmp) =
        { chronicle := c.step K config walDir (.outage kept opts)
          saver := { dir := m.saver.dir.outage found part tmp } } := by
      dsimp only [Machine.step, Chronicle.step]
      rw [hreopened, hopen, hlog]
    have hsnapshot : (c.step K config walDir (.outage kept opts)).system.durable.snapshot =
        c.system.durable.snapshot := by
      obtain ⟨db₀, db₁, db₂, wal, lsn, -, -, -, rfl⟩ := DurableVDB.open_parts hopen
      dsimp only [Chronicle.step]
      rw [hopen]
    have hnext := hready.step hdim hfair
    rw [hstep]
    refine ⟨⟨hnext.backed, hnext.alive, _, hshows, ?_, nofun⟩, es ++ [.outage kept opts], ?_, ?_⟩
    · exact congrArg (fun o => [o]) hsnapshot.symm
    · exact Run.Along.append.2 ⟨halong, by rw [hes]; exact ⟨hfair, trivial⟩⟩
    · rw [List.foldl_append, hes]
      rfl

/-! ### Runs -/

/-- What is so behind a run. -/
structure Atomic (K : Kernels δ) (config : VDBConfig) (walDir : Bytes) (start : Chronicle ι δ)
    (m : Machine ι δ) : Prop where
  /-- With saves at one blow the chronicle would be the same. -/
  coarse : ∃ es : List Durable.Event, Run.Along (Chronicle.step K config walDir)
    (Chronicle.Fair K config walDir) start es ∧
      es.foldl (Chronicle.step K config walDir) start = m.chronicle
  surviving : m.chronicle.Surviving K config walDir
  /-- In the middle of a save power may be lost too. -/
  outage : m.SavesFair K config walDir → ∀ kept opts found part tmp d,
    m.reopened K config walDir kept opts (m.saver.dir.outage found part tmp) = .ok d → d.db.Fits →
      Chronicle.Recovered config m.chronicle d

theorem Found.recovered {d : DurableVDB ι} (h : m.Found K c) (hr : Chronicle.Recovered config c d) :
    Chronicle.Recovered config m.chronicle d := by
  rcases h with rfl | ⟨i, reply, hi, rfl⟩
  · exact hr
  · rw [act_save hi] at hr
    refine ⟨hr.replayed, hr.durable, fun hpolicy pc hpc job hjob => ?_, hr.fresh⟩
    -- the call that saves has no record of its own
    obtain ⟨j, hj⟩ := List.getElem?_of_mem hpc
    have hne : j ≠ i := by
      rintro rfl
      rw [hi] at hj
      cases hj
      cases hjob
    refine hr.committed hpolicy pc ?_ job hjob
    exact List.mem_of_getElem? ((List.getElem?_set_ne hne.symm).trans hj)

/-- **Outages inside a save.**  Whatever system calls of a save fail, and behind whichever of them
power is lost, the database is what the records say that have come through. -/
theorem atomic_run {opts : Options} {d : DurableVDB ι} (hdim : config.dim < 2 ^ 32)
    (hopen : DurableVDB.open K config opts walDir [] none = .ok d) (ms : List Event)
    (h : Run.Along (step K config walDir) (Fair K config walDir)
      { chronicle := { system := { durable := d } } } ms) :
    Atomic K config walDir { system := { durable := d } }
      (ms.foldl (step K config walDir) { chronicle := { system := { durable := d } } }) := by
  have hstart := Chronicle.backed_start (δ := δ) hdim hopen
  have hok : Ok config ({ chronicle := { system := { durable := d } } } : Machine ι δ) := by
    obtain ⟨db₀, db₁, db₂, wal, lsn, -, -, -, rfl⟩ := DurableVDB.open_parts hopen
    refine ⟨hstart, Chronicle.alive_of_backed hstart, ⟨[none], none⟩, ?_, rfl, nofun⟩
    exact ⟨rfl, List.forall_mem_singleton.2 nofun, rfl, nofun⟩
  obtain ⟨hend, es, halong, hes⟩ := Run.Along.coarse (I := Ok config)
    (fun m e hm he => hm.step hdim he) hok h
  refine ⟨⟨es, halong, hes⟩, Chronicle.surviving_of_backed hend.backed hdim, ?_⟩
  intro hsaves kept opts' found part tmp d' hreopened hfit
  obtain ⟨c, hfound, hpath, -⟩ := hend.found (K := K) found part tmp
  obtain ⟨es', halong', hes', -, hwal⟩ := hfound.fair hsaves
  have hready : Ready config c := hes' ▸ Ready.run ⟨hend.backed, hend.alive⟩ hdim halong'
  rw [Machine.reopened, hpath, ← hwal] at hreopened
  exact hfound.recovered (Chronicle.outage hready.backed.stored hdim hreopened hfit).2

open Database.System (onePlace smallConfig)

/-- An insert, and a checkpoint whose save has renamed its file; a `sync()` goes on meanwhile. -/
def renamed : List Event :=
  .act (.invoke (.insert [1] {})) :: List.replicate 10 (.act (.run 0 {})) ++
    .act .checkpoint :: List.replicate 2 (.act (.run 1 {})) ++
    [.write 1 {}, .write 1 { short := some 3 }, .act .sync, .act (.run 2 {}), .write 1 {},
      .act (.run 2 {}), .write 1 {}, .write 1 {}]

theorem atomic_renamed :
    Atomic onePlace smallConfig (ascii "wal") { system := { durable := Traced.waiting } }
      (renamed.foldl (step onePlace smallConfig (ascii "wal"))
        { chronicle := { system := { durable := Traced.waiting } } }) :=
  atomic_run (by decide) Traced.open_waiting renamed (by decide +kernel)

/-- An insert, and a checkpoint that cannot sync the directory and reclaims the log. -/
def unsettling : List Event :=
  .act (.invoke (.insert [1] {})) :: List.replicate 10 (.act (.run 0 {})) ++
    .act .checkpoint :: List.replicate 2 (.act (.run 1 {})) ++
    List.replicate 5 (.write 1 {}) ++ .write 1 { fails := true } ::
    List.replicate 6 (.act (.run 1 {}))

/-- A record to a segment. -/
def unsettled : Machine PairIndex ℕ :=
  unsettling.foldl (step onePlace smallConfig (ascii "wal"))
    { chronicle := { system := { durable := { Traced.waiting with
      opts := { policy := .perOpSync, segmentMaxBytes := 1 }
      wal := { Traced.waiting.wal with segMax := 1 } } } } }

-- without its directory the insert is lost, although it has returned
example : unsettled.chronicle.system.calls[0]?.any (· matches .returned (.id 0)) ∧
    (unsettled.reopened onePlace smallConfig (ascii "wal") (fun _ => 0) {}
      (unsettled.saver.dir.outage 1 0 none)).toOption.map (fun d => d.db.contains 0) =
        some false := by
  decide +kernel

end Machine

end Durable

end Vdb
