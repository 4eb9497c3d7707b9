import Vdb.Database.Arrays

/-!
# The shape of a Brute database

What every phase of every call leaves of a database over a Brute index, whatever ids the calls are
on, however they interleave and whether they throw: the index holds the vectors of the rows, and
all the arrays have one row for each of them.

* `System.shaped_run` : this holds in every state that calls and reloads reach, as long as no
  `assert` fails and no compaction is cut short by an exception.
-/

namespace Vdb

namespace Database

open Metadata

theorem validate_error {schema : List AttrSpec} {rec : Record} {e : Exn}
    (h : Metadata.validate schema rec = .error e) : e ≠ .assertionFailed := by
  have hattrs : ∀ (schema : List AttrSpec) (attrs : List AttrValue),
      validateAttrs schema attrs ≠ .error .assertionFailed := by
    intro schema attrs
    induction schema generalizing attrs with
    | nil => rintro ⟨⟩
    | cons spec schema ih =>
      cases attrs with
      | nil => rintro ⟨⟩
      | cons v attrs =>
        rw [validateAttrs]
        split_ifs
        · exact ih attrs
        · rintro ⟨⟩
  rintro rfl
  unfold Metadata.validate at h
  split_ifs at h
  · cases h
  · exact hattrs _ _ h

/-- A Brute index of these vectors. -/
def Index.Holding (config : VDBConfig) (x : Index) (vectors : List Vec) : Prop :=
  x = .brute { dim := config.dim, data := vectors }

theorem Index.keeps_holding {δ : Type} [Distance δ] (K : Kernels δ) {config : VDBConfig}
    (hbrute : config.kind = .brute) : Index.Keeps K config (Index.Holding config) where
  sound := by
    rintro x vs rfl
    exact ⟨trivial, hbrute.symm, rfl⟩
  make := by
    unfold Index.Holding Index.make
    rw [hbrute]
  allocate := by
    rintro x x' vs vec iid rfl ha
    rw [Index.allocate, BruteIndex.add] at ha
    cases ha
    rfl
  link := by
    rintro x vs iid rfl -
    rfl
  undrawn := by
    rintro x vs rfl
    rfl

namespace VDB

variable {ι δ : Type} [ColumnIndex ι] [Distance δ] {K : Kernels δ} {config : VDBConfig}
  {db db' db₀ : VDB ι} {ext : ExternalId} {i iid old : InternalId} {vec : Vec} {rec : Record}

/-- The index holds the vectors of the rows, and every array has one row for each of them. -/
structure Shaped (config : VDBConfig) (db : VDB ι) : Prop where
  brute : config.kind = .brute
  configured : db.config = config
  index : db.index = .brute { dim := config.dim, data := db.vectors }
  ids : db.intToExt.length = db.vectors.length
  deleted : db.deleted.length = db.vectors.length
  metadata : db.metadata.Shaped config.schema db.vectors.length

omit [ColumnIndex ι] [Distance δ] in
theorem Shaped.laid (h : db.Shaped config) :
    db.Laid (Index.Holding config) Column.HasSize (fun _ => True) config :=
  ⟨h.configured, h.index, h.ids, h.deleted, h.metadata, fun _ _ => trivial⟩

omit [ColumnIndex ι] [Distance δ] in
/-- Whatever more is known of the columns and of the live rows. -/
theorem Laid.shaped {P : ℕ → Column ι → ℕ → Prop} {S : InternalId → Prop}
    (h : db.Laid (Index.Holding config) P S config) (hbrute : config.kind = .brute)
    (hsized : ∀ a c n, P a c n → c.Sized n) : db.Shaped config where
  brute := hbrute
  configured := h.configured
  index := h.index
  ids := h.ids
  deleted := h.deleted
  metadata := h.metadata.mono fun a c => hsized a c _

omit [ColumnIndex ι] [Distance δ] in
theorem Shaped.of_laid (h : db.Shaped config)
    (hl : db'.Laid (Index.Holding config) Column.HasSize (fun _ => True) config) :
      db'.Shaped config :=
  hl.shaped h.brute fun _ _ _ hc => hc

theorem shaped_new (hnew : VDB.new config = .ok db) (hbrute : config.kind = .brute) :
    db.Shaped config := by
  have hmake : Index.Holding config (Index.make config) [] := by
    unfold Index.Holding Index.make
    rw [hbrute]
  have hlaid : db.Laid (Index.Holding config) Column.HasSize (fun _ => True) config :=
    laid_new hmake hnew fun _ spec _ => Column.sized_new spec
  exact hlaid.shaped hbrute fun _ _ _ hc => hc

theorem Shaped.insertPublish (h : db.Shaped config) :
    (db.insertPublish ext iid).state.Shaped config :=
  h.of_laid (h.laid.insertPublish Column.rowwise_hasSize trivial)

theorem Shaped.updatePublish (h : db.Shaped config) :
    (db.updatePublish ext old iid).state.Shaped config :=
  h.of_laid (h.laid.updatePublish Column.rowwise_hasSize trivial)

theorem Shaped.remove (h : db.Shaped config) : (db.remove ext).state.Shaped config :=
  h.of_laid (h.laid.remove Column.rowwise_hasSize)

theorem Shaped.setMetadata (h : db.Shaped config) : (db.setMetadata ext rec).state.Shaped config :=
  h.of_laid (h.laid.setMetadata fun _ iid _ a _ _ _ hc => Column.Sized.setRow hc iid (rec.attr a))

theorem Shaped.insertAllocate (h : db.Shaped config)
    (hv : Metadata.validate config.schema rec = .ok ())
    (hs : ¬ (db.insertAllocate K ext vec rec).Aborted) :
    (db.insertAllocate K ext vec rec).state.Shaped config :=
  h.of_laid (h.laid.insertAllocate (Index.keeps_holding K h.brute) Column.rowwise_hasSize hv
    (fun _ => trivial) hs).1

theorem Shaped.updateAllocate (h : db.Shaped config) {rec : Option Record}
    (hv : ∀ r ∈ rec, Metadata.validate config.schema r = .ok ())
    (hs : ¬ (db.updateAllocate K ext vec rec).Aborted) :
    (db.updateAllocate K ext vec rec).state.Shaped config :=
  h.of_laid (h.laid.updateAllocate (Index.keeps_holding K h.brute) Column.rowwise_hasSize hv
    (fun _ _ _ => trivial) hs).1

theorem Shaped.compact (h : db.Shaped config) (hs : (db.compact K).Returns) :
    (db.compact K).state.Shaped config :=
  h.of_laid (h.laid.compact (Index.keeps_holding K h.brute) (fun a c c' hc he => by
    have hpermuted := Column.Sized.permute hc db.liveIds
    rwa [he] at hpermuted) hs)

/-- **A reload** that returns. -/
theorem Shaped.reload {lsn : ℕ} (h : db.Shaped config) (hdim : db.config.dim < 2 ^ 32)
    (hw : db.WordSized lsn) (hrebuilds : db.Rebuilds) : (db.reload lsn).Shaped config := by
  have hsound : db.index.Sound ∧ db.index.kind = config.kind ∧
      Index.Holding config db.index.undrawn db.vectors := by
    rw [h.index]
    exact ⟨trivial, h.brute.symm, rfl⟩
  have hlaid : (db.reload lsn).Laid (Index.Holding config) Column.HasSize db.IsLive config :=
    h.laid.reload (Q := fun _ => Column.HasSize) hsound.1 hsound.2.1 hsound.2.2 (fun _ _ _ hc => hc)
      (fun spec _ hc => Column.Sized.reread hc spec)
      (fun hc _ _ he => Column.Sized.rebuildRow hc he)
      hdim hw hrebuilds
  exact hlaid.shaped h.brute fun _ _ _ hc => hc

end VDB

/-! ### Runs -/

namespace System

variable {ι δ : Type} [ColumnIndex ι] [Distance δ] {K : Kernels δ} {s : System ι δ}
  {config : VDBConfig} {db₀ : VDB ι} {a : Action} {next : Step}

/-- The database has the shape, and the calls without a node have records that were checked. -/
structure Shaped (config : VDBConfig) (s : System ι δ) : Prop where
  db : s.db.Shaped config
  inserting : ∀ x vec rec, s.calls x = some (.inserting vec rec) →
    Metadata.validate config.schema rec = .ok ()
  updating : ∀ x vec rec, s.calls x = some (.updating vec rec) →
    ∀ r ∈ rec, Metadata.validate config.schema r = .ok ()

/-- The step leaves a database: no `assert` fails, and a compaction or a reload returns. -/
def Leaves (K : Kernels δ) (s : System ι δ) : Step → Prop
  | .act a => ¬ (s.perform K a).Aborted ∧ (a = .compact → (s.perform K a).Returns)
  | .reload lsn => s.db.config.dim < 2 ^ 32 ∧ s.db.WordSized lsn ∧ s.db.Rebuilds

omit [ColumnIndex ι] [Distance δ] in
theorem Shaped.schema (h : s.Shaped config) : s.db.metadata.schema = config.schema := by
  obtain ⟨rows, -, hrows⟩ := h.db.metadata
  exact hrows.declared

omit [ColumnIndex ι] [Distance δ] in
/-- A call goes on with `call`, and the others as they were. -/
theorem Shaped.setCall (h : s.Shaped config) {db : VDB ι} (hdb : db.Shaped config)
    (out : List ExternalId) (ext : ExternalId) {call : Option (Call δ)}
    (hins : ∀ vec rec, call = some (.inserting vec rec) →
      Metadata.validate config.schema rec = .ok ())
    (hupd : ∀ vec rec, call = some (.updating vec rec) →
      ∀ r ∈ rec, Metadata.validate config.schema r = .ok ()) :
    ({ s with db, handedOut := out }.setCall ext call).Shaped config where
  db := hdb
  inserting x vec rec hx := by
    by_cases hne : x = ext
    · subst hne
      rw [calls_setCall_self] at hx
      exact hins vec rec hx
    · rw [calls_setCall _ _ _ _ hne] at hx
      exact h.inserting x vec rec hx
  updating x vec rec hx := by
    by_cases hne : x = ext
    · subst hne
      rw [calls_setCall_self] at hx
      exact hupd vec rec hx
    · rw [calls_setCall _ _ _ _ hne] at hx
      exact h.updating x vec rec hx

omit [ColumnIndex ι] [Distance δ] in
/-- A phase that leaves a shaped database, and a call with a node or none. -/
theorem Shaped.phase (h : s.Shaped config) {α : Type} (ext : ExternalId) {o : Outcome (VDB ι) α}
    (ho : o.state.Shaped config) (next : α → Option (Call δ))
    (hnext : ∀ a, ∀ c ∈ next a, c.unplaced = none) :
    (s.phase ext o next).state.Shaped config := by
  cases o with
  | ok a db =>
    refine h.setCall ho s.handedOut ext (fun vec rec hc => ?_) fun vec rec hc => ?_
    · cases hnext a _ hc
    · cases hnext a _ hc
  | error e db => exact h.setCall ho s.handedOut ext nofun nofun

omit [ColumnIndex ι] [Distance δ] in
theorem Shaped.whole (h : s.Shaped config) {α : Type} {o : Outcome (VDB ι) α}
    (ho : o.state.Shaped config) : (s.whole o).state.Shaped config := by
  cases o <;> exact ⟨ho, h.inserting, h.updating⟩

omit [ColumnIndex ι] [Distance δ] in
theorem aborted_phase {α : Type} {ext : ExternalId} {o : Outcome (VDB ι) α}
    {next : α → Option (Call δ)} (h : o.Aborted) : (s.phase ext o next).Aborted := by
  cases o with
  | ok a db => exact h.elim
  | error e db => exact h

/-- **One action** keeps the shape. -/
theorem Shaped.act (h : s.Shaped config) (ha : ¬ (s.perform K a).Aborted)
    (hc : a = .compact → (s.perform K a).Returns) : (s.act K a).Shaped config := by
  cases a with
  | insert vec rec =>
    dsimp only [System.act, perform]
    cases hv : s.db.validate rec with
    | error e => exact h
    | ok _ =>
      have hdb : s.db.reserveId.2.Shaped config :=
        ⟨h.db.brute, h.db.configured, h.db.index, h.db.ids,
        h.db.deleted, h.db.metadata⟩
      refine h.setCall hdb _ _
        (fun vec' rec' (hcall : some (Call.inserting vec rec) = _) => ?_) nofun
      cases hcall
      rw [← h.schema]
      exact hv
  | insertReserved ext vec rec =>
    dsimp only [System.act, perform, begin]
    cases hv : s.db.validate rec with
    | error e => exact h
    | ok _ =>
      refine h.setCall h.db s.handedOut ext (fun vec' rec' hcall => ?_) nofun
      cases hcall
      rw [← h.schema]
      exact hv
  | update ext vec rec =>
    dsimp only [System.act, perform, begin]
    cases hv : s.db.validateUpdate rec with
    | error e => exact h
    | ok _ =>
      refine h.setCall h.db s.handedOut ext nofun fun vec' rec' hcall r hr => ?_
      cases hcall
      cases hr
      rw [← h.schema]
      exact hv
  | allocate ext =>
    dsimp only [System.act, perform] at ha ⊢
    cases hcall : s.calls ext with
    | none => exact h
    | some call =>
      rw [hcall] at ha
      cases call with
      | inserting vec rec =>
        dsimp only at ha ⊢
        have hdb : (s.db.insertAllocate K ext vec rec).state.Shaped config := h.db.insertAllocate
          (h.inserting ext vec rec hcall) fun hab => ha (aborted_phase hab).andThen
        exact Outcome.andThen_state (h.phase ext hdb _ (by rintro iid c ⟨⟩; rfl))
          fun _ _ hs => ⟨hs.db, hs.inserting, hs.updating⟩
      | updating vec rec =>
        dsimp only at ha ⊢
        have hdb : (s.db.updateAllocate K ext vec rec).state.Shaped config := h.db.updateAllocate
          (h.updating ext vec rec hcall) fun hab => ha (aborted_phase hab)
        refine h.phase ext hdb _ fun nodes c hc => ?_
        obtain ⟨n, -, rfl⟩ := Option.map_eq_some_iff.1 hc
        rfl
      | _ => exact h
  | link ext =>
    -- a Brute index has no links
    have hlink : ∀ iid (pc : Hnsw.Pc δ) (next : Hnsw.Pc δ → Call δ),
      (∀ pc, (next pc).unplaced = none) →
        (s.linkSection K ext iid pc next).Shaped config := by
      intro iid pc next hnext
      have hindex : s.db.index.linkSection K s.db.config.metric iid pc = (s.db.index, .done) := by
        rw [h.db.index]
        rfl
      unfold linkSection
      rw [hindex]
      have hdb : (s.db.withIndex s.db.index).Shaped config :=
        ⟨h.db.brute, h.db.configured, h.db.index,
        h.db.ids, h.db.deleted, h.db.metadata⟩
      refine h.setCall hdb s.handedOut ext
        (fun vec rec hcall => ?_) fun vec rec hcall => ?_
      · have := hnext .done
        rw [Option.some.inj hcall] at this
        cases this
      · have := hnext .done
        rw [Option.some.inj hcall] at this
        cases this
    dsimp only [System.act, perform]
    cases s.calls ext with
    | none => exact h
    | some call =>
      cases call with
      | insertLinking vec rec iid pc => exact hlink iid pc (.insertLinking vec rec iid) fun _ => rfl
      | updateLinking vec rec old iid pc =>
        exact hlink iid pc (.updateLinking vec rec old iid) fun _ => rfl
      | _ => exact h
  | publish ext =>
    dsimp only [System.act, perform]
    cases s.calls ext with
    | none => exact h
    | some call =>
      cases call with
      | insertLinking vec rec iid pc =>
        cases pc with
        | done => exact h.phase ext h.db.insertPublish _ (by simp)
        | _ => exact h
      | updateLinking vec rec old iid pc =>
        cases pc with
        | done => exact h.phase ext h.db.updatePublish _ (by simp)
        | _ => exact h
      | _ => exact h
  | remove ext => exact h.whole h.db.remove
  | setMetadata ext rec => exact h.whole h.db.setMetadata
  | compact =>
    refine h.whole (h.db.compact ?_)
    have hreturns := hc rfl
    dsimp only [perform, System.whole] at hreturns
    cases hcompact : s.db.compact K with
    | ok _ db => trivial
    | error e db =>
      rw [hcompact] at hreturns
      exact hreturns.elim

theorem Shaped.step (h : s.Shaped config) (hl : s.Leaves K next) :
    (s.step K next).Shaped config := by
  cases next with
  | act a => exact h.act hl.1 hl.2
  | reload lsn => exact ⟨h.db.reload hl.1 hl.2.1 hl.2.2, h.inserting, h.updating⟩

/-- **The shape** holds in every state that calls and reloads reach. -/
theorem shaped_run (hnew : VDB.new config = .ok db₀) (hbrute : config.kind = .brute)
    (steps : List Step)
    (h : Run.Along (System.step K) (fun s a => s.Leaves K a) { db := db₀ } steps) :
    (steps.foldl (System.step K) { db := db₀ }).db.Shaped config := by
  have hstart : ({ db := db₀ } : System ι δ).Shaped config :=
    ⟨VDB.shaped_new hnew hbrute, by rintro x vec rec ⟨⟩, by rintro x vec rec ⟨⟩⟩
  exact (Run.Along.invariant (I := fun s : System ι δ => s.Shaped config)
    (fun _ _ hs hl => hs.step hl) hstart h).db

end System

end Database

end Vdb
