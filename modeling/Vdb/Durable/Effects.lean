import Vdb.Durable.Moves
import Vdb.Database.Interleaving
import Vdb.Lib.Deferred

/-!
# Mutations in flight

What the records of the log make of the points of a database, and what a mutator does to them
between its prefix and its return.  A mutation is a task from its record on until it is applied.

* `WalRecord.effect` : what a record makes of the point under its id.
* `Ledger` : the database is what the log says, but for the tasks.
* `Ledger.logs`, `Ledger.applies`, `Ledger.continues` : what a call keeps of this.
-/

namespace Vdb

open Metadata Database

/-- The id whose point a record is about. -/
def WalRecord.key (r : WalRecord) : Option ExternalId :=
  match r.type with
  | .insert | .update | .setMeta | .delete => some r.extId
  | .checkpoint | .unknown _ _ => none

/-- What a record makes of the point under its id, with `n` attributes. -/
def WalRecord.effect (n : ℕ) (r : WalRecord) (p : Option Point) : Option Point :=
  match r.type with
  | .insert => some (.of n r.vec r.metadata)
  | .update => p.map fun _ => .of n r.vec r.metadata
  | .setMeta => p.map (Point.withRecord n r.metadata)
  | .delete => none
  | .checkpoint | .unknown _ _ => p

namespace Database

namespace VDB

variable {ι δ : Type} [ColumnIndex ι] {E : Prop} {J : ℕ → Column ι → List ColRow → Prop}
  {config : VDBConfig} {db db' : VDB ι} {es : List Entry} {ext : ExternalId} {b : Bool}

/-- After a remove nothing stands under the id. -/
theorem Holds.remove_logical (hJ : Column.Invariant True J anyWrite)
    (h : db.Holds J config es) (he : db.remove ext = .ok b db') :
    db'.logical = Function.update db.logical ext none := by
  have hok : ∀ a c rows, J a c rows → c.Ok rows := fun _ _ _ => hJ.ok trivial
  obtain ⟨-, ⟨-, rfl, hnone⟩ | ⟨i, -, hlives, h'⟩⟩ := h.remove hJ he
  · rw [← h.logical_none hnone, Function.update_eq_self]
  · exact h.logical_remove h' hok hlives

/-- A `set_metadata` overwrites what stands under the id. -/
theorem Holds.setMetadata_logical (hJ : Column.Invariant True J anyWrite)
    (h : db.Holds J config es) {rec : Record} (hb : rec.BoolsOk)
    (he : db.setMetadata ext rec = .ok b db') (hfit : db'.Fits) :
    db'.logical = Function.update db.logical ext
      ((db.logical ext).map (Point.withRecord config.schema.length rec)) := by
  have hok : ∀ a c rows, J a c rows → c.Ok rows := fun _ _ _ => hJ.ok trivial
  obtain ⟨-, ⟨-, rfl, hnone⟩ | ⟨i, -, hlives, h'⟩⟩ :=
    h.setMetadata hJ (fun _ => hb) (fun _ _ _ _ _ _ _ => trivial) he fun _ => hfit
  · rw [h.logical_none hnone, Option.map_none, ← h.logical_none hnone, Function.update_eq_self]
  · exact h.logical_setMetadata h' hok hlives

end VDB

namespace Call

variable {δ : Type}

/-- The action on the database that the next section of a call on `ext` is. -/
def action (ext : ExternalId) : Call δ → Database.Action
  | .inserting _ _ => .allocate ext
  | .updating _ _ => .allocate ext
  | .insertLinking _ _ _ .done => .publish ext
  | .updateLinking _ _ _ _ .done => .publish ext
  | .insertLinking _ _ _ _ => .link ext
  | .updateLinking _ _ _ _ _ => .link ext

end Call

namespace System

variable {ι δ : Type} [ColumnIndex ι] [Distance δ] {s : System ι δ} {config : VDBConfig}
  {es : List Entry} {J : ℕ → Column ι → List ColRow → Prop}

omit [ColumnIndex ι] [Distance δ] in
/-- An id is given out. -/
theorem Inv.reserve (h : s.Inv J config es) (hnext : s.db.nextExtId + 1 < 2 ^ 64) :
    ({ s with db := s.db.reserveId.2 } : System ι δ).Inv J config es := by
  have hle : s.db.nextExtId ≤ s.db.reserveId.2.nextExtId := by
    dsimp only [VDB.reserveId]
    rw [Nat.mod_eq_of_lt hnext]
    exact Nat.le_succ _
  exact
  { holds := { h.holds with }
    calls := fun x call hx =>
      (h.calls x call hx).frame rfl (fun _ _ hi _ => hi) (fun _ hi => hi) (grows_refl _)
    ids := fun x hx => (h.ids x hx).trans_le hle
    handedOut := fun x hx => (h.handedOut x hx).trans_le hle }

omit [ColumnIndex ι] [Distance δ] in
/-- No row has the next id. -/
theorem Inv.not_lives (h : s.Inv J config es) (i : InternalId) :
    ¬ VDB.Lives es s.db.nextExtId i := by
  rintro ⟨e, hi, -, hext⟩
  exact (h.ids e.ext (List.mem_map_of_mem (List.mem_of_getElem? hi))).ne hext

omit [ColumnIndex ι] [Distance δ] in
/-- An action of a call takes no id and no record, and is no compaction. -/
theorem target_action (s : System ι δ) (ext : ExternalId) (call : Call δ) :
    s.target (call.action ext) = none ∧ s.Fresh (call.action ext) ∧
      (call.action ext).record = none ∧ s.Quiet (call.action ext) := by
  cases call with
  | insertLinking vec rec iid pc => cases pc <;> exact ⟨rfl, trivial, rfl, nofun⟩
  | updateLinking vec rec old iid pc => cases pc <;> exact ⟨rfl, trivial, rfl, nofun⟩
  | _ => exact ⟨rfl, trivial, rfl, nofun⟩

/-- Before its node is linked, a section of a call changes no point. -/
theorem Effective.action_same {K : Kernels δ} {ext : ExternalId} {call : Call δ}
    (h : s.Effective K (call.action ext)) (hlinked : ¬ call.Linked) :
    (s.act K (call.action ext)).db.logical = s.db.logical := by
  cases call with
  | insertLinking vec rec iid pc =>
    cases pc with
    | done => exact absurd trivial hlinked
    | _ => exact h
  | updateLinking vec rec old iid pc =>
    cases pc with
    | done => exact absurd trivial hlinked
    | _ => exact h
  | _ => exact h

theorem Effective.action_linked {K : Kernels δ} {ext : ExternalId} {call : Call δ}
    (h : s.Effective K (call.action ext)) (hc : s.calls ext = some call) (hlinked : call.Linked) :
    (s.act K (call.action ext)).db.logical = Function.update s.db.logical ext
      (call.effect s.db.config.schema.length (s.db.logical ext)) := by
  cases call with
  | insertLinking vec rec iid pc =>
    cases pc with
    | done => exact (h _ hc).1
    | _ => exact hlinked.elim
  | updateLinking vec rec old iid pc =>
    cases pc with
    | done => exact (h _ hc).1
    | _ => exact hlinked.elim
  | _ => exact hlinked.elim

omit [Distance δ] in
/-- The old row of an update shows until the update publishes the new one. -/
theorem Inv.updating_isSome (h : s.Inv J config es) (hok : ∀ a c rows, J a c rows → c.Ok rows)
    {ext : ExternalId} {vec : Vec} {rec : Option Record} {old iid : InternalId} {pc : Hnsw.Pc δ}
    (hc : s.calls ext = some (.updateLinking vec rec old iid pc)) : (s.db.logical ext).isSome := by
  obtain ⟨o, hold, holive, hoext, -⟩ := h.calls ext _ hc
  rw [h.holds.logical_some hok hold holive hoext]
  rfl

omit [ColumnIndex ι] [Distance δ] in
/-- A call starts whose record has been checked. -/
theorem Inv.start (h : s.Inv J config es) {ext : ExternalId} {call : Call δ}
    (hcall : CallOk s.db es ext call) : (s.setCall ext (some call)).Inv J config es := by
  have hbegin : (s.begin (.ok ()) ext call).state.Inv J config es := h.begin call hcall
  exact hbegin

end System

end Database

namespace Durable

/-- Where the database is with a mutation that waits for its application: an insert has its id. -/
def Mutation.waiting {δ : Type} : Mutation → Option (Call δ)
  | .insert _ vec rec => some (.inserting vec rec)
  | _ => none

/-- The call is an insert or an update, and works on this mutation. -/
def Mutation.Runs {δ : Type} : Mutation → Call δ → Prop
  | .insert _ vec rec, .inserting vec' rec' => vec' = vec ∧ rec' = rec
  | .insert _ vec rec, .insertLinking vec' rec' _ _ => vec' = vec ∧ rec' = rec
  | .update _ vec rec, .updating vec' rec' => vec' = vec ∧ rec' = some rec
  | .update _ vec rec, .updateLinking vec' rec' _ _ _ => vec' = vec ∧ rec' = some rec
  | _, _ => False

/-- A mutation that is logged and not applied. -/
structure Task (δ : Type) where
  job : Job
  /-- Where the database is with it. -/
  call : Option (Call δ)

namespace Task

variable {δ : Type} (t : Task δ)

def ext : ExternalId := t.job.mutation.ext

def record : WalRecord := t.job.mutation.toRecord t.job.lsn

end Task

theorem Mutation.key_toRecord (m : Mutation) (lsn : ℕ) : (m.toRecord lsn).key = some m.ext := by
  cases m <;> rfl

theorem Mutation.runs_waiting {δ : Type} (m : Mutation) :
    ∀ call ∈ (m.waiting : Option (Call δ)), m.Runs call := by
  intro call hcall
  cases m with
  | insert ext vec rec =>
    cases hcall
    exact ⟨rfl, rfl⟩
  | _ => cases hcall

theorem Mutation.Runs.boolsOk {δ : Type} {m : Mutation} {call : Call δ} {lsn : ℕ}
    (h : m.Runs call) (hb : (m.toRecord lsn).metadata.BoolsOk) : call.BoolsOk := by
  cases call with
  | inserting vec rec =>
    cases m with
    | insert ext vec' rec' => exact h.2 ▸ hb
    | _ => exact h.elim
  | updating vec rec =>
    cases m with
    | update ext vec' rec' =>
      intro r hr
      cases h.2.symm.trans hr
      exact hb
    | _ => exact h.elim
  | _ => trivial

/-- What a call publishes is what the record of its mutation says; an update has a point to
replace. -/
theorem Mutation.Runs.effect {δ : Type} {m : Mutation} {call : Call δ} {n lsn : ℕ}
    {p : Option Point} (h : m.Runs call) (hlinked : call.Linked)
    (hp : ∀ vec rec old iid, call = .updateLinking vec rec old iid .done → p.isSome) :
    call.effect n p = (m.toRecord lsn).effect n p := by
  cases call with
  | insertLinking vec rec iid pc =>
    cases pc with
    | done =>
      cases m with
      | insert ext vec' rec' =>
        obtain ⟨rfl, rfl⟩ := h
        rfl
      | _ => exact h.elim
    | _ => exact hlinked.elim
  | updateLinking vec rec old iid pc =>
    cases pc with
    | done =>
      cases m with
      | update ext vec' rec' =>
        obtain ⟨rfl, rfl⟩ := h
        obtain ⟨q, rfl⟩ := Option.isSome_iff_exists.1 (hp _ _ _ _ rfl)
        rfl
      | _ => exact h.elim
    | _ => exact hlinked.elim
  | _ => exact hlinked.elim

/-- An update of a row that has gone. -/
theorem Mutation.Runs.effect_none {δ : Type} {m : Mutation} {n lsn : ℕ} {vec : Vec}
    {rec : Option Record} (h : m.Runs (.updating vec rec : Call δ)) :
    (m.toRecord lsn).effect n none = none := by
  cases m with
  | update ext vec' rec' => rfl
  | _ => exact h.elim

/-- The calls of a database are those of the tasks. -/
structure Serves {ι δ : Type} (s : Database.System ι δ) (tasks : List (Task δ)) : Prop where
  calls : ∀ t ∈ tasks, s.calls t.ext = t.call
  others : ∀ x, (∀ t ∈ tasks, t.ext ≠ x) → s.calls x = none

namespace Serves

variable {ι δ : Type} {s s' : Database.System ι δ} {tasks : List (Task δ)} {t t' : Task δ}

/-- A task begins. -/
theorem cons (h : Serves s tasks) (ht : ∀ u ∈ tasks, u.ext ≠ t.ext)
    (hcalls : s'.calls = Function.update s.calls t.ext t.call) : Serves s' (t :: tasks) where
  calls := by
    rw [hcalls]
    refine List.forall_mem_cons.2 ⟨Function.update_self .., fun u hu => ?_⟩
    rw [Function.update_of_ne (ht u hu), h.calls u hu]
  others x hx := by
    obtain ⟨hne, hx⟩ := List.forall_mem_cons.1 hx
    rw [hcalls, Function.update_of_ne hne.symm, h.others x hx]

/-- A task ends. -/
theorem tail (h : Serves s (t :: tasks)) (ht : ∀ u ∈ tasks, u.ext ≠ t.ext)
    (hcalls : s'.calls = Function.update s.calls t.ext none) : Serves s' tasks where
  calls u hu := by
    rw [hcalls, Function.update_of_ne (ht u hu), h.calls u (List.mem_cons_of_mem t hu)]
  others x hx := by
    rw [hcalls, Function.update_apply]
    split_ifs with hxt
    · rfl
    · exact h.others x (List.forall_mem_cons.2 ⟨Ne.symm hxt, hx⟩)

/-- A task goes on. -/
theorem next (h : Serves s (t :: tasks)) (ht : ∀ u ∈ tasks, u.ext ≠ t.ext) (hext : t'.ext = t.ext)
    (hcalls : s'.calls = Function.update s.calls t.ext t'.call) : Serves s' (t' :: tasks) := by
  have htail : Serves (s.setCall t.ext none) tasks := h.tail ht rfl
  refine htail.cons (hext ▸ ht) (hcalls.trans ?_)
  rw [hext]
  exact (Function.update_idem ..).symm

end Serves

namespace DurableVDB

variable {ι δ : Type} [ColumnIndex ι] [Distance δ] {K : Kernels δ} {d : DurableVDB ι} {db : VDB ι}
  {ext : ExternalId} {call : Call δ} {next : Option (Call δ)} {m : Mutation}

/-- The next section of an application is an action on the database. -/
theorem applyNext_act {s : Database.System ι δ} (hdb : s.db = d.db)
    (hcall : s.calls ext = some call)
    (h : d.applyNext K ext call = .ok next (d.withDb db)) : ∃ out, s.perform K (call.action ext) =
      .ok () { db, calls := Function.update s.calls ext next, handedOut := out } := by
  -- a locked phase is one of the database, with the call that goes on
  have hphase : ∀ {α : Type} {a : α} {o : Outcome (VDB ι) α} {f : α → Option (Call δ)}
      {d' : DurableVDB ι}, o.mapState d.withDb = .ok a d' → d' = d.withDb db →
        s.phase ext o f = .ok () ({ s with db }.setCall ext (f a)) := by
    intro α a o f d' hmap hd
    obtain ⟨db', rfl, rfl⟩ := Outcome.mapState_ok hmap
    obtain rfl : db' = db := congrArg DurableVDB.db hd
    rfl
  cases call with
  | inserting vec rec =>
    obtain ⟨iid, d', hmap, h⟩ := Outcome.andThen_ok h
    injection h with hnext hd
    subst hnext
    refine ⟨s.handedOut ++ [ext], ?_⟩
    dsimp only [Call.action, Database.System.perform]
    rw [hcall, hdb]
    dsimp only
    rw [hphase hmap hd]
    rfl
  | updating vec rec =>
    obtain ⟨nodes, d', hmap, h⟩ := Outcome.andThen_ok h
    injection h with hnext hd
    subst hnext
    refine ⟨s.handedOut, ?_⟩
    dsimp only [Call.action, Database.System.perform]
    rw [hcall, hdb]
    dsimp only
    rw [hphase hmap hd]
    rfl
  | insertLinking vec rec iid pc =>
    cases pc with
    | done =>
      obtain ⟨_, d', hmap, h⟩ := Outcome.andThen_ok h
      injection h with hnext hd
      subst hnext
      refine ⟨s.handedOut, ?_⟩
      dsimp only [Call.action, Database.System.perform]
      rw [hcall, hdb]
      dsimp only
      rw [hphase hmap hd]
      rfl
    | _ =>
      injection h with hnext hd
      subst hnext
      obtain rfl := congrArg DurableVDB.db hd
      refine ⟨s.handedOut, ?_⟩
      dsimp only [Call.action, Database.System.perform]
      rw [hcall]
      dsimp only [Database.System.linkSection]
      rw [hdb]
      rfl
  | updateLinking vec rec old iid pc =>
    cases pc with
    | done =>
      obtain ⟨_, d', hmap, h⟩ := Outcome.andThen_ok h
      injection h with hnext hd
      subst hnext
      refine ⟨s.handedOut, ?_⟩
      dsimp only [Call.action, Database.System.perform]
      rw [hcall, hdb]
      dsimp only
      rw [hphase hmap hd]
      rfl
    | _ =>
      injection h with hnext hd
      subst hnext
      obtain rfl := congrArg DurableVDB.db hd
      refine ⟨s.handedOut, ?_⟩
      dsimp only [Call.action, Database.System.perform]
      rw [hcall]
      dsimp only [Database.System.linkSection]
      rw [hdb]
      rfl

/-- Where a section of an application goes: it publishes its node and is over, it goes on with the
same mutation, or it finds that its row has gone. -/
theorem applyNext_next (h : d.applyNext K ext call = .ok next (d.withDb db)) :
    (call.Linked ∧ next = none) ∨
      (∃ call', next = some call' ∧ ¬ call.Linked ∧ ∀ m : Mutation, m.Runs call → m.Runs call') ∨
        (next = none ∧ d.db.logical ext = none ∧ ∃ vec rec, call = .updating vec rec) := by
  cases call with
  | inserting vec rec =>
    obtain ⟨iid, d', -, h⟩ := Outcome.andThen_ok h
    cases h
    refine .inr (.inl ⟨_, rfl, id, fun m hm => ?_⟩)
    cases m <;> exact hm
  | insertLinking vec rec iid pc =>
    cases pc with
    | done =>
      obtain ⟨_, d', -, h⟩ := Outcome.andThen_ok h
      cases h
      exact .inl ⟨trivial, rfl⟩
    | _ =>
      cases h
      refine .inr (.inl ⟨_, rfl, id, fun m hm => ?_⟩)
      cases m <;> exact hm
  | updating vec rec =>
    obtain ⟨nodes, d', hmap, h⟩ := Outcome.andThen_ok h
    obtain ⟨db', halloc, -⟩ := Outcome.mapState_ok hmap
    injection h with hnext _
    subst hnext
    cases nodes with
    | some nodes =>
      refine .inr (.inl ⟨_, rfl, id, fun m hm => ?_⟩)
      cases m <;> exact hm
    | none =>
      refine .inr (.inr ⟨rfl, ?_, vec, rec, rfl⟩)
      -- an update allocates nothing only where the id has no row
      unfold VDB.updateAllocate at halloc
      unfold VDB.logical
      cases hx : d.db.extToInt ext with
      | none => rfl
      | some old =>
        rw [hx] at halloc
        obtain ⟨id, db₁, -, halloc⟩ := Outcome.andThen_ok halloc
        obtain ⟨_, db₂, -, halloc⟩ := Outcome.andThen_ok halloc
        cases halloc
  | updateLinking vec rec old iid pc =>
    cases pc with
    | done =>
      obtain ⟨_, d', -, h⟩ := Outcome.andThen_ok h
      cases h
      exact .inl ⟨trivial, rfl⟩
    | _ =>
      cases h
      refine .inr (.inl ⟨_, rfl, id, fun m hm => ?_⟩)
      cases m <;> exact hm

end DurableVDB

/-- The database is what the log says, but for the tasks, each of which is on an id of its own. -/
structure Ledger {ι δ : Type} [ColumnIndex ι] (config : VDBConfig) (base : Logical) (db : VDB ι)
    (tasks : List (Task δ)) (log : List WalRecord) : Prop where
  apart : (tasks.map Task.ext).Nodup
  bools : ∀ t ∈ tasks, t.record.metadata.BoolsOk
  runs : ∀ t ∈ tasks, ∀ call ∈ t.call, t.job.mutation.Runs call
  deferred : Deferred WalRecord.key (WalRecord.effect config.schema.length) base db.logical log
    fun x r => ∃ t ∈ tasks, t.ext = x ∧ t.record = r
  /-- The calls of the tasks can go on. -/
  held : ∃ (s : Database.System ι δ) (es : List Entry), s.db = db ∧
    s.Inv (fun _ c rows => c.Ok rows) config es ∧ Serves s tasks

namespace Ledger

variable {ι δ : Type} [ColumnIndex ι] [Distance δ] {K : Kernels δ} {config : VDBConfig}
  {base : Logical} {d : DurableVDB ι} {db : VDB ι} {tasks tasks' : List (Task δ)}
  {log : List WalRecord} {t : Task δ} {job : Job} {req : Request}

omit [Distance δ] in
theorem perm (h : Ledger config base db tasks log) (hp : tasks.Perm tasks') :
    Ledger config base db tasks' log where
  apart := (hp.map Task.ext).nodup_iff.1 h.apart
  bools t ht := h.bools t (hp.mem_iff.2 ht)
  runs t ht := h.runs t (hp.mem_iff.2 ht)
  deferred := h.deferred.congr fun x r => exists_congr fun t => and_congr_left' hp.mem_iff.symm
  held := by
    obtain ⟨s, es, hdb, hinv, hs⟩ := h.held
    exact ⟨s, es, hdb, hinv, fun t ht => hs.calls t (hp.mem_iff.2 ht), fun x hx =>
      hs.others x fun t ht => hx t (hp.mem_iff.1 ht)⟩

omit [Distance δ] in
/-- A record that is about no point. -/
theorem note (h : Ledger config base db tasks log) {r : WalRecord} (hr : r.key = none) :
    Ledger config base db tasks (log ++ [r]) :=
  { h with deferred := h.deferred.note hr }

omit [Distance δ] in
/-- An insert that fails to log its record has used up an id. -/
theorem reserved (h : Ledger config base db tasks log) (hnext : db.nextExtId + 1 < 2 ^ 64)
    (req : Request) : Ledger config base (req.reserved db) tasks log := by
  cases req with
  | insert vec rec =>
    obtain ⟨s, es, rfl, hinv, hs⟩ := h.held
    exact { h with held := ⟨_, es, rfl, hinv.reserve hnext, hs.calls, hs.others⟩ }
  | _ => exact h

omit [Distance δ] in
theorem not_mem_of_cons (h : Ledger config base db (t :: tasks) log) :
    ∀ u ∈ tasks, u.ext ≠ t.ext := fun _ hu heq =>
  (List.nodup_cons.1 h.apart).1 (heq ▸ List.mem_map_of_mem hu)

omit [Distance δ] in
/-- **A prefix** logs the record of its mutation. -/
theorem logs (h : Ledger config base db tasks log) (hnext : db.nextExtId + 1 < 2 ^ 64)
    (hm : req.mutation db = some job.mutation) (hfree : ∀ t ∈ tasks, t.ext ≠ job.mutation.ext)
    (hbools : (job.mutation.toRecord job.lsn).metadata.BoolsOk) :
    Ledger config base (req.reserved db) (⟨job, job.mutation.waiting⟩ :: tasks)
      (log ++ [job.mutation.toRecord job.lsn]) where
  apart := List.nodup_cons.2 ⟨fun hmem => by
    obtain ⟨t, ht, heq⟩ := List.mem_map.1 hmem
    exact hfree t ht heq, h.apart⟩
  bools := List.forall_mem_cons.2 ⟨hbools, h.bools⟩
  runs := List.forall_mem_cons.2 ⟨job.mutation.runs_waiting, h.runs⟩
  deferred := by
    have hkey := job.mutation.key_toRecord job.lsn
    refine (h.reserved hnext req).deferred.append hkey ?_ fun x r => ?_
    · rintro r ⟨t, ht, heq, -⟩
      exact hfree t ht heq
    · rw [List.exists_mem_cons_iff, or_comm]
      exact or_congr_right (and_congr eq_comm eq_comm)
  held := by
    obtain ⟨s, es, rfl, hinv, hs⟩ := h.held
    -- a mutation that waits without a call leaves the database as it is
    have hidle : (job.mutation.waiting : Option (Call δ)) = none →
        Serves s (⟨job, job.mutation.waiting⟩ :: tasks) := by
      intro hw
      refine hs.cons hfree ?_
      dsimp only [Task.ext]
      rw [hw, ← hs.others _ hfree, Function.update_eq_self]
    cases req with
    | insert vec rec =>
      have hmut : job.mutation = .insert s.db.nextExtId vec rec := (Option.some.inj hm).symm
      refine ⟨{ s with db := s.db.reserveId.2 }.setCall s.db.nextExtId
        (some (.inserting vec rec)), es, rfl, ?_, ?_⟩
      · exact (hinv.reserve hnext).start ⟨hinv.not_lives, hnext⟩
      · refine hs.cons hfree ?_
        dsimp only [Task.ext]
        rw [hmut]
        rfl
    | remove ext => exact ⟨s, es, rfl, hinv, hidle (by rw [← Option.some.inj hm]; rfl)⟩
    | update ext vec rec =>
      obtain ⟨effective, -, hmut⟩ := Option.map_eq_some_iff.1 hm
      exact ⟨s, es, rfl, hinv, hidle (by rw [← hmut]; rfl)⟩
    | setMetadata ext rec => exact ⟨s, es, rfl, hinv, hidle (by rw [← Option.some.inj hm]; rfl)⟩

omit [Distance δ] in
/-- A task that goes on changes no point. -/
theorem next (h : Ledger config base d.db (t :: tasks) log) {t' : Task δ} (hjob : t'.job = t.job)
    (hruns : ∀ call ∈ t'.call, t.job.mutation.Runs call) (hlogical : db.logical = d.db.logical)
    (hheld : ∃ (s : Database.System ι δ) (es : List Entry), s.db = db ∧
      s.Inv (fun _ c rows => c.Ok rows) config es ∧ Serves s (t' :: tasks)) :
    Ledger config base db (t' :: tasks) log := by
  obtain ⟨job, call⟩ := t
  obtain ⟨job', call'⟩ := t'
  obtain rfl : job' = job := hjob
  exact
  { apart := h.apart
    bools := List.forall_mem_cons.2 (List.forall_mem_cons.1 h.bools)
    runs := List.forall_mem_cons.2 ⟨hruns, (List.forall_mem_cons.1 h.runs).2⟩
    deferred := by
      rw [hlogical]
      refine h.deferred.congr fun x r => ?_
      rw [List.exists_mem_cons_iff, List.exists_mem_cons_iff]
      exact Iff.rfl
    held := hheld }

omit [Distance δ] in
/-- A task that is over has done what its record says. -/
theorem ends (h : Ledger config base d.db (t :: tasks) log)
    (hlogical : db.logical = Function.update d.db.logical t.ext
      (t.record.effect config.schema.length (d.db.logical t.ext)))
    (hheld : ∃ (s : Database.System ι δ) (es : List Entry), s.db = db ∧
      s.Inv (fun _ c rows => c.Ok rows) config es ∧ Serves s tasks) :
    Ledger config base db tasks log where
  apart := (List.nodup_cons.1 h.apart).2
  bools := (List.forall_mem_cons.1 h.bools).2
  runs := (List.forall_mem_cons.1 h.runs).2
  deferred := by
    refine h.deferred.apply (r := t.record) (x := t.ext) ⟨t, List.mem_cons_self, rfl, rfl⟩ ?_
      (fun y hy => ?_) fun y r => ?_
    · rw [hlogical, Function.update_self]
    · rw [hlogical, Function.update_of_ne hy]
    · rw [List.exists_mem_cons_iff]
      constructor
      · rintro ⟨u, hu, rfl, rfl⟩
        exact ⟨.inr ⟨u, hu, rfl, rfl⟩, h.not_mem_of_cons u hu⟩
      · rintro ⟨⟨rfl, -⟩ | hu, hne⟩
        · exact absurd rfl hne
        · exact hu
  held := hheld

/-- **The application** of a mutation starts, and is over at once without phases. -/
theorem applies (K : Kernels δ)
    (h : Ledger config base d.db (⟨job, job.mutation.waiting⟩ :: tasks) log)
    {call : Option (Call δ)} (he : d.applyStart job.mutation = .ok call (d.withDb db))
    (hfit : db.Fits) :
    Ledger config base db (call.elim tasks fun call => ⟨job, some call⟩ :: tasks) log := by
  have hJ := Column.invariant_ok (ι := ι)
  obtain ⟨s, es, hdb, hinv, hs⟩ := h.held
  have hfree := h.not_mem_of_cons
  have hcall := hs.calls _ List.mem_cons_self
  obtain ⟨m, lsn, doCkpt⟩ := job
  have hbools : (m.toRecord lsn).metadata.BoolsOk := h.bools _ List.mem_cons_self
  -- a call of one phase ends, and leaves the calls of the other tasks
  have hwhole : ∀ s' : Database.System ι δ, s'.calls = s.calls →
    m.waiting = (none : Option (Call δ)) →
      Serves s' tasks := by
    intro s' hcalls hw
    have hnone : s.calls m.ext = none := hcall.trans hw
    refine hs.tail hfree ?_
    rw [hcalls, ← hnone]
    exact (Function.update_eq_self ..).symm
  cases m with
  | insert ext vec rec =>
    dsimp only [DurableVDB.applyStart] at he
    split at he
    · cases he
    · injection he with hc hd
      obtain rfl := hc
      obtain rfl : d.db = db := congrArg DurableVDB.db hd
      exact h
  | remove ext =>
    obtain ⟨b, d', hmap, he⟩ := Outcome.andThen_ok he
    obtain ⟨db', hremove, rfl⟩ := Outcome.mapState_ok hmap
    injection he with hc hd
    obtain rfl := hc
    obtain rfl : db' = db := congrArg DurableVDB.db hd
    rw [← hdb] at hremove
    have hact : s.perform K (.remove ext) = .ok () { s with db := db' } := by
      dsimp only [Database.System.perform, Database.System.whole]
      rw [hremove]
      rfl
    have horderly : s.Orderly K (.remove ext) :=
      ⟨fun x hx => Option.some.inj hx ▸ hcall, trivial, .inl (by rw [hact]; trivial)⟩
    obtain ⟨es', hinv'⟩ := hinv.act_remove hJ horderly
    rw [Database.System.act, hact] at hinv'
    exact h.ends (hdb ▸ hinv.holds.remove_logical hJ hremove)
      ⟨{ s with db := db' }, es', rfl, hinv', hwhole _ rfl rfl⟩
  | update ext vec rec =>
    dsimp only [DurableVDB.applyStart] at he
    split at he
    · cases he
    · injection he with hc hd
      obtain rfl := hc
      obtain rfl : d.db = db := congrArg DurableVDB.db hd
      refine h.next rfl ?_ rfl ⟨s.setCall ext (some (.updating vec (some rec))), es, hdb,
        hinv.start trivial, hs.next hfree rfl rfl⟩
      rintro call ⟨⟩
      exact ⟨rfl, rfl⟩
  | setMetadata ext rec =>
    obtain ⟨b, d', hmap, he⟩ := Outcome.andThen_ok he
    obtain ⟨db', hset, rfl⟩ := Outcome.mapState_ok hmap
    injection he with hc hd
    obtain rfl := hc
    obtain rfl : db' = db := congrArg DurableVDB.db hd
    rw [← hdb] at hset
    have hact : s.perform K (.setMetadata ext rec) = .ok () { s with db := db' } := by
      dsimp only [Database.System.perform, Database.System.whole]
      rw [hset]
      rfl
    have horderly : s.Orderly K (.setMetadata ext rec) :=
      ⟨fun x hx => Option.some.inj hx ▸ hcall, trivial, .inl (by rw [hact]; trivial)⟩
    obtain ⟨es', hinv'⟩ := hinv.act_setMetadata hJ horderly (fun _ => hbools) fun _ => by
      rw [Database.System.act, hact]
      exact hfit
    rw [Database.System.act, hact] at hinv'
    exact h.ends (hdb ▸ hinv.holds.setMetadata_logical hJ hbools hset hfit)
      ⟨{ s with db := db' }, es', rfl, hinv', hwhole _ rfl rfl⟩

omit [Distance δ] in
theorem boolsOk (h : Ledger config base db tasks log) {s : Database.System ι δ}
    (hs : Serves s tasks) : s.Bools := by
  intro x call hx
  by_cases hx' : ∀ t ∈ tasks, t.ext ≠ x
  · rw [hs.others x hx'] at hx
    cases hx
  · push Not at hx'
    obtain ⟨t, ht, rfl⟩ := hx'
    exact (h.runs t ht call ((hs.calls t ht).symm.trans hx)).boolsOk (h.bools t ht)

/-- **The next section** of an application. -/
theorem continues {call : Call δ} {next : Option (Call δ)}
    (h : Ledger config base d.db (⟨job, some call⟩ :: tasks) log)
    (he : d.applyNext K job.mutation.ext call = .ok next (d.withDb db)) (hfit : db.Fits) :
    Ledger config base db (next.elim tasks fun call => ⟨job, some call⟩ :: tasks) log := by
  have hJ := Column.invariant_ok (ι := ι)
  obtain ⟨s, es, hdb, hinv, hs⟩ := h.held
  have hfree := h.not_mem_of_cons
  have hcall : s.calls job.mutation.ext = some call := hs.calls _ List.mem_cons_self
  have hruns : job.mutation.Runs call := h.runs _ List.mem_cons_self call rfl
  obtain ⟨out, hact⟩ := DurableVDB.applyNext_act hdb hcall he
  obtain ⟨htarget, hfresh, hrecord, hquiet⟩ := s.target_action job.mutation.ext call
  have hstate : s.act K (call.action job.mutation.ext) =
      { db, calls := Function.update s.calls job.mutation.ext next, handedOut := out } := by
    rw [Database.System.act, hact]
    rfl
  have horderly : s.Orderly K (call.action job.mutation.ext) :=
    ⟨by rw [htarget]; exact nofun, hfresh, .inl (by rw [hact]; trivial)⟩
  have hexact : s.Exact K (call.action job.mutation.ext) :=
    ⟨by rw [hrecord]; exact nofun, by rw [hstate]; exact hfit⟩
  have hbools : s.Bools := h.boolsOk hs
  have heffective := hinv.effective hJ horderly hquiet hbools hexact
  obtain ⟨es', hinv'⟩ := hinv.act hJ horderly hquiet (fun _ => hbools) fun _ => hexact
  rw [hstate] at hinv'
  -- what the section does to the point of its id, by where it goes
  rcases DurableVDB.applyNext_next he with
    ⟨hlinked, rfl⟩ | ⟨call', rfl, hlinked, hruns'⟩ | ⟨rfl, hnone, vec, rec, rfl⟩
  · -- it publishes its node
    have hpoint := heffective.action_linked hcall hlinked
    rw [hstate, hinv.holds.configured, hruns.effect hlinked ?_, hdb] at hpoint
    · exact h.ends hpoint ⟨_, es', rfl, hinv', hs.tail hfree rfl⟩
    · rintro vec rec old iid rfl
      exact hinv.updating_isSome (fun _ _ _ hc => hc) hcall
  · have hpoint := heffective.action_same hlinked
    rw [hstate, hdb] at hpoint
    refine h.next rfl ?_ hpoint ⟨_, es', rfl, hinv', hs.next hfree rfl rfl⟩
    rintro c ⟨⟩
    exact hruns' _ hruns
  · -- its row has gone, and nothing stands under its id
    have hpoint := heffective.action_same id
    rw [hstate, hdb] at hpoint
    refine h.ends ?_ ⟨_, es', rfl, hinv', hs.tail hfree rfl⟩
    dsimp only [Task.record, Task.ext]
    rw [hnone, hruns.effect_none, ← hnone, Function.update_eq_self]
    exact hpoint

end Ledger

end Durable

end Vdb
