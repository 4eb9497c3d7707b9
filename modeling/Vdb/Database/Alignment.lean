import Vdb.Database.Sequential

/-!
# The alignment of the internal ids

An internal id is the number of a node of the index and a position in every array of the database,
because the index numbers its nodes in the order in which the database appends its rows.  The column
indexes may be any that throw when they like: a call that throws leaves the arrays aligned too.

* `VDB.aligned_run` : along any calls, every node is taken by the index under the next number, but
  for an IVF index, which takes none because nothing trains it before the first insert.
-/

namespace Vdb

namespace Database

open Metadata

/-- How many nodes an index of this kind can number. -/
def IndexKind.capacity : IndexKind → ℕ
  | .hnsw => 2 ^ 20
  | _ => 2 ^ 32

namespace Index

variable {δ : Type} [Distance δ] {x : Index}

/-- An index with room takes a vector under the next number. -/
theorem Sound.accepts (K : Kernels δ) (metric : Metric) (vec : Vec) (h : x.Sound)
    (hk : x.kind ≠ .ivf) (hroom : x.size < x.kind.capacity) :
    ∃ x', x.allocate K metric vec = .ok x.size x' := by
  cases x with
  | brute x =>
    have hid : ((x.data ++ [vec]).length - 1) % 2 ^ 32 = x.data.length := by
      rw [List.length_append]
      exact Nat.mod_eq_of_lt hroom
    refine ⟨.brute { x with data := x.data ++ [vec] }, ?_⟩
    rw [Index.allocate, BruteIndex.add]
    dsimp only
    rw [hid]
    rfl
  | ivf x => exact absurd rfl hk
  | hnsw x =>
    have hcount : x.graph.count < 2 ^ 20 := hroom
    have hlt : ¬ x.graph.config.maxElements ≤ x.graph.count := by
      rw [h.config]
      exact not_le.2 hcount
    have hid : x.graph.count % 2 ^ 32 = x.graph.count :=
      Nat.mod_eq_of_lt (hcount.trans (by decide))
    rw [Index.allocate, HNSWState.allocate, Hnsw.HNSWIndex.allocate, if_neg hlt]
    dsimp only
    rw [hid]
    exact ⟨_, rfl⟩

/-- The index of an IVF database is never trained. -/
theorem Sound.refuses (K : Kernels δ) (metric : Metric) (vec : Vec) (h : x.Sound)
    (hk : x.kind = .ivf) : x.allocate K metric vec = .error .assertionFailed x := by
  cases x with
  | ivf x =>
    obtain rfl : x = {} := h
    rfl
  | _ => cases hk

end Index

namespace VDB

variable {ι δ : Type} [ColumnIndex ι] [Distance δ] {K : Kernels δ} {config : VDBConfig}
  {db db' db₀ : VDB ι} {ext : ExternalId} {i iid old : InternalId} {vec : Vec} {rec : Record}
  {op : Op}

/-- Every array has one row for each node of the index. -/
structure Aligned (db : VDB ι) : Prop where
  ids : db.intToExt.length = db.index.size
  deleted : db.deleted.length = db.index.size
  vectors : db.vectors.length = db.index.size
  rows : db.metadata.rows = db.index.size

/-- The vector a call comes to add to the index: its record is valid, and an update knows its id. -/
def added (db : VDB ι) : Op → Option Vec
  | .insert vec rec | .insertReserved _ vec rec => if (db.validate rec).isOk then some vec else none
  | .update ext vec rec =>
    if (db.validateUpdate rec).isOk ∧ db.contains ext then some vec else none
  | _ => none

/-- What the index and the arrays owe each other in one call. -/
structure InStep (K : Kernels δ) (db : VDB ι) (op : Op) : Prop where
  /-- The index takes the vector, and both `assert`s on its number hold. -/
  accepts : ∀ vec ∈ db.added op,
    ∃ index, db.index.allocate K db.config.metric vec = .ok db.intToExt.length index
  /-- A compaction only throws where its metadata does, before it adds a vector. -/
  rebuilds : op = .compact → (db.metadata.permute db.liveIds).Returns → (db.compact K).Returns
  aligned : (db.apply K op).Aligned

/-- The index has room for what the call adds. -/
def Room (db : VDB ι) (op : Op) : Prop :=
  (db.added op).isSome → db.index.size < db.config.kind.capacity

/-- What every call leaves, whether it returns or throws. -/
structure Kept (config : VDBConfig) (db : VDB ι) : Prop where
  configured : db.config = config
  kind : db.index.kind = config.kind
  sound : db.index.Sound
  size : db.index.size ≤ config.kind.capacity
  aligned : db.Aligned

theorem kept_new (hnew : VDB.new config = .ok db) : db.Kept config := by
  unfold VDB.new at hnew
  cases hm : (MetadataStore.new config.schema : Except Exn (MetadataStore ι)) with
  | error e =>
    rw [hm] at hnew
    cases hnew
  | ok m =>
    rw [hm] at hnew
    cases hnew
    obtain ⟨hsize, hkind⟩ := Index.size_make config
    have hrows : m.rows = 0 := by
      unfold MetadataStore.new at hm
      split at hm <;> cases hm
      rfl
    exact
    { configured := rfl, kind := hkind, sound := Index.sound_make config
      size := hsize.symm ▸ Nat.zero_le _
      aligned := ⟨hsize.symm, hsize.symm, hsize.symm, hrows.trans hsize.symm⟩ }

omit [ColumnIndex ι] in
/-- A change that adds no row and drops none. -/
theorem Kept.frame (h : db.Kept config) (hconfig : db'.config = db.config)
    (hindex : db'.index.Sound ∧ db'.index.size = db.index.size ∧ db'.index.kind = db.index.kind)
    (hids : db'.intToExt.length = db.intToExt.length)
    (hdeleted : db'.deleted.length = db.deleted.length)
    (hvectors : db'.vectors.length = db.vectors.length)
    (hrows : db'.metadata.rows = db.metadata.rows) : db'.Kept config where
  configured := hconfig.trans h.configured
  kind := hindex.2.2.trans h.kind
  sound := hindex.1
  size := hindex.2.1.trans_le h.size
  aligned :=
  { ids := hids.trans (h.aligned.ids.trans hindex.2.1.symm)
    deleted := hdeleted.trans (h.aligned.deleted.trans hindex.2.1.symm)
    vectors := hvectors.trans (h.aligned.vectors.trans hindex.2.1.symm)
    rows := hrows.trans (h.aligned.rows.trans hindex.2.1.symm) }

omit [ColumnIndex ι] in
/-- What a loop over the columns does to a database, whether it throws or not. -/
theorem Kept.loop (h : db.Kept config) (o : Outcome (List (Column ι)) Unit) :
    ((o.mapState db.metadata.withColumns).mapState db.withMetadata).state.Kept config := by
  cases o <;> exact h.frame rfl ⟨h.sound, rfl, rfl⟩ rfl rfl rfl rfl

theorem Kept.goLive (h : db.Kept config) (iid : InternalId) :
    (db.goLive iid).state.Kept config := by
  have hmarked : { db with
      deleted := db.deleted.set iid false, deletedCount := decrement db.deletedCount }.Kept
        config :=
    h.frame rfl ⟨h.sound, rfl, rfl⟩ rfl List.length_set rfl rfl
  exact hmarked.loop _

theorem Kept.goDead (h : db.Kept config) (iid : InternalId) :
    (db.goDead iid).state.Kept config := by
  have hmarked : { db with deleted := db.deleted.set iid true }.Kept config :=
    h.frame rfl ⟨h.sound, rfl, rfl⟩ rfl List.length_set rfl rfl
  exact hmarked.loop _

omit [ColumnIndex ι] in
theorem Kept.link (h : db.Kept config) (hi : iid < db.index.size) :
    (db.link K iid).Kept config := by
  have hlink : (db.index.link K db.config.metric iid).size = db.index.size ∧
      (db.index.link K db.config.metric iid).kind = db.index.kind := Index.size_link iid
  exact h.frame rfl ⟨h.sound.link hi, hlink⟩ rfl rfl rfl rfl

theorem Kept.insertPublish (h : db.Kept config) : (db.insertPublish ext iid).state.Kept config :=
  Outcome.andThen_state (h.goLive iid) fun _ _ hs =>
    hs.frame rfl ⟨hs.sound, rfl, rfl⟩ rfl rfl rfl rfl

theorem Kept.updatePublish (h : db.Kept config) :
    (db.updatePublish ext old iid).state.Kept config :=
  Outcome.andThen_state (h.goLive iid) fun _ s hs => by
    have hcounted : { s with deletedCount := s.deletedCount + 1 }.Kept config :=
      hs.frame rfl ⟨hs.sound, rfl, rfl⟩ rfl rfl rfl rfl
    exact Outcome.andThen_state (hcounted.goDead old) fun _ _ hs =>
      hs.frame rfl ⟨hs.sound, rfl, rfl⟩ rfl rfl rfl rfl

omit [ColumnIndex ι] in
/-- The index accepts, and so the database allocates. -/
theorem Kept.allocateNode (h : db.Kept config) (hivf : config.kind ≠ .ivf)
    (hroom : db.index.size < config.kind.capacity) (ext : ExternalId) (vec : Vec) :
    ∃ index, db.index.allocate K db.config.metric vec = .ok db.intToExt.length index ∧
      index.Sound ∧ index.size = db.index.size + 1 ∧ index.kind = db.index.kind ∧
      db.allocateNode K ext vec = .ok db.intToExt.length { db with
        index, intToExt := db.intToExt ++ [ext], deleted := db.deleted ++ [true]
        vectors := db.vectors ++ [vec], deletedCount := db.deletedCount + 1 } := by
  obtain ⟨index, ha⟩ := h.sound.accepts K db.config.metric vec (h.kind ▸ hivf) (h.kind ▸ hroom)
  rw [← h.aligned.ids] at ha
  obtain ⟨-, hsize, hkind⟩ := Index.allocate_ok ha
  refine ⟨index, ha, (h.sound.allocate ha).1, hsize, hkind, ?_⟩
  unfold VDB.allocateNode
  rw [ha]
  dsimp only
  rw [if_neg (not_not.2 rfl)]
  rfl

omit [ColumnIndex ι] in
/-- A node and its metadata row are pushed. -/
theorem Kept.push (h : db.Kept config) (hroom : db.index.size < config.kind.capacity)
    {index : Index}
    (hindex : index.Sound ∧ index.size = db.index.size + 1 ∧ index.kind = db.index.kind)
    {metadata : MetadataStore ι} (hrows : metadata.rows = db.metadata.rows + 1) (n k : ℕ) :
    { db with
      index, intToExt := db.intToExt ++ [ext], deleted := db.deleted ++ [true]
      vectors := db.vectors ++ [vec], deletedCount := k, metadata, nextExtId := n }.Kept
          config := by
  obtain ⟨hsound, hsize, hkind⟩ := hindex
  exact
  { configured := h.configured
    kind := hkind.trans h.kind
    sound := hsound
    size := hsize.trans_le hroom
    aligned :=
    { ids := by
        rw [List.length_append, h.aligned.ids]
        exact hsize.symm
      deleted := by
        rw [List.length_append, h.aligned.deleted]
        exact hsize.symm
      vectors := by
        rw [List.length_append, h.aligned.vectors]
        exact hsize.symm
      rows := hrows.trans (h.aligned.rows ▸ hsize.symm) } }

/-- **An insert** into an index with room, or one that is refused. -/
theorem Kept.insertReserved (h : db.Kept config)
    (hadd : db.validate rec = .ok () → config.kind ≠ .ivf ∧ db.index.size < config.kind.capacity) :
    (db.insertReserved K ext vec rec).state.Kept config := by
  unfold VDB.insertReserved VDB.insertAllocate
  cases hv : db.validate rec with
  | error e => exact h
  | ok _ =>
    obtain ⟨hivf, hroom⟩ := hadd hv
    obtain ⟨index, -, hsound, hsize, hkind, ha⟩ := h.allocateNode (K := K) hivf hroom ext vec
    have hlast : db.intToExt.length < index.size := by
      rw [h.aligned.ids, hsize]
      exact Nat.lt_succ_self _
    unfold VDB.validate at hv
    dsimp only
    rw [ha]
    dsimp only [Outcome.andThen]
    unfold MetadataStore.appendRow
    rw [hv]
    dsimp only [Outcome.mapState, VDB.withMetadata, VDB.keepAhead]
    split_ifs
    · exact Kept.insertPublish (Kept.link (h.push hroom ⟨hsound, hsize, hkind⟩ rfl _ _) hlast)
    · exact Kept.insertPublish (Kept.link (h.push hroom ⟨hsound, hsize, hkind⟩ rfl _ _) hlast)

theorem Kept.insert (h : db.Kept config)
    (hadd : db.validate rec = .ok () → config.kind ≠ .ivf ∧ db.index.size < config.kind.capacity) :
    (db.insert K vec rec).state.Kept config := by
  unfold VDB.insert
  cases hv : db.validate rec with
  | error e => exact h
  | ok _ =>
    have hnext : { db with nextExtId := (db.nextExtId + 1) % 2 ^ 64 }.Kept config :=
      h.frame rfl ⟨h.sound, rfl, rfl⟩ rfl rfl rfl rfl
    exact Outcome.andThen_state (hnext.insertReserved hadd) fun _ _ hs => hs

/-- **An update** in an index with room, or one that is refused. -/
theorem Kept.update (h : db.Kept config) {rec : Option Record}
    (hadd : db.validateUpdate rec = .ok () → db.contains ext = true →
      config.kind ≠ .ivf ∧ db.index.size < config.kind.capacity) :
    (db.update K ext vec rec).state.Kept config := by
  unfold VDB.update VDB.updateAllocate
  cases hv : db.validateUpdate rec with
  | error e => exact h
  | ok _ =>
    cases hx : db.extToInt ext with
    | none => exact h
    | some old =>
      obtain ⟨hivf, hroom⟩ := hadd hv (by rw [VDB.contains, hx]; rfl)
      obtain ⟨index, -, hsound, hsize, hkind, ha⟩ := h.allocateNode (K := K) hivf hroom ext vec
      have hlast : db.intToExt.length < index.size := by
        rw [h.aligned.ids, hsize]
        exact Nat.lt_succ_self _
      dsimp only
      rw [ha]
      dsimp only [Outcome.andThen]
      have hpublish : ∀ s : VDB ι, s.Kept config → ((s.updatePublish ext old
          db.intToExt.length).andThen fun _ s => .ok true s).state.Kept config := fun s hs =>
        Outcome.andThen_state hs.updatePublish fun _ _ hs => hs
      cases rec with
      | none =>
        exact hpublish _ (Kept.link (h.push hroom ⟨hsound, hsize, hkind⟩ rfl _ _) hlast)
      | some rec =>
        have hvalid : Metadata.validate db.metadata.schema rec = .ok () := hv
        dsimp only [VDB.appendMetadata]
        unfold MetadataStore.appendRow
        rw [hvalid]
        exact hpublish _ (Kept.link (h.push hroom ⟨hsound, hsize, hkind⟩ rfl _ _) hlast)

theorem Kept.remove (h : db.Kept config) : (db.remove ext).state.Kept config := by
  unfold VDB.remove
  cases db.extToInt ext with
  | none => exact h
  | some iid =>
    exact Outcome.andThen_state (h.goDead iid) fun _ _ hs =>
      hs.frame rfl ⟨hs.sound, rfl, rfl⟩ rfl rfl rfl rfl

theorem Kept.setMetadata (h : db.Kept config) : (db.setMetadata ext rec).state.Kept config := by
  unfold VDB.setMetadata
  cases db.validate rec with
  | error e => exact h
  | ok _ =>
    cases db.extToInt ext with
    | none => exact h
    | some iid =>
      refine Outcome.andThen_state ?_ fun _ _ hs => hs
      unfold MetadataStore.setRow
      cases Metadata.validate db.metadata.schema rec with
      | error e => exact h
      | ok _ =>
        cases hloop : forColumns (fun a c => c.setRow iid (rec.attr a)) 0 db.metadata.columns <;>
          exact h.frame rfl ⟨h.sound, rfl, rfl⟩ rfl rfl rfl rfl

omit [ColumnIndex ι] in
/-- The last loop of a compaction, from an index with room for all the rows. -/
theorem appendAll_aligned {rows : List (ExternalId × Vec)} (hconfig : db.config = config)
    (hkind : db.index.kind = config.kind) (hsound : db.index.Sound)
    (hivf : config.kind = .ivf → rows = [])
    (hroom : db.index.size + rows.length ≤ config.kind.capacity)
    (hids : db.intToExt.length = db.index.size) (hdeleted : db.deleted.length = db.index.size)
    (hvectors : db.vectors.length = db.index.size)
    (hrows : db.metadata.rows = db.index.size + rows.length) :
    ∃ db', appendAll K rows db = .ok () db' ∧ db'.Kept config := by
  induction rows generalizing db with
  | nil =>
    exact ⟨db, rfl,
      { configured := hconfig, kind := hkind, sound := hsound, size := hroom
        aligned := ⟨hids, hdeleted, hvectors, hrows⟩ }⟩
  | cons r rows ih =>
    obtain ⟨ext, vec⟩ := r
    rw [List.length_cons] at hroom hrows
    have hk : config.kind ≠ .ivf := fun hk => by cases hivf hk
    obtain ⟨index, ha⟩ := hsound.accepts K db.config.metric vec (hkind ▸ hk)
      (by rw [hkind]; omega)
    obtain ⟨-, hsize, hkind'⟩ := Index.allocate_ok ha
    have hadd : db.index.add K db.config.metric vec =
        .ok db.index.size (index.link K db.config.metric db.index.size) := by
      rw [Index.add, ha]
    obtain ⟨hsize₂, hkind₂⟩ : (index.link K db.config.metric db.index.size).size = index.size ∧
        (index.link K db.config.metric db.index.size).kind = index.kind := Index.size_link _
    have hsound₂ : (index.link K db.config.metric db.index.size).Sound :=
      (hsound.allocate ha).1.link (hsize ▸ Nat.lt_succ_self _)
    rw [appendAll]
    unfold VDB.append
    rw [hadd]
    dsimp only
    rw [if_neg (not_not.2 hids.symm)]
    dsimp only [Outcome.andThen]
    refine ih hconfig (hkind₂.trans (hkind'.trans hkind)) hsound₂
      (fun hk' => absurd hk' hk) ?_ ?_ ?_
      ?_ ?_
    · change (index.link K db.config.metric db.index.size).size + rows.length ≤ _
      omega
    · change (db.intToExt ++ [ext]).length = (index.link K db.config.metric db.index.size).size
      rw [List.length_append, hids, hsize₂, hsize]
      rfl
    · change (db.deleted ++ [false]).length = (index.link K db.config.metric db.index.size).size
      rw [List.length_append, hdeleted, hsize₂, hsize]
      rfl
    · change (db.vectors ++ [vec]).length = (index.link K db.config.metric db.index.size).size
      rw [List.length_append, hvectors, hsize₂, hsize]
      rfl
    · change db.metadata.rows = (index.link K db.config.metric db.index.size).size + rows.length
      omega

/-- **A compaction.** -/
theorem Kept.compact (h : db.Kept config) : (db.compact K).state.Kept config ∧
    ((db.metadata.permute db.liveIds).Returns → (db.compact K).Returns) := by
  have hlive : db.liveIds.length ≤ db.index.size := by
    rw [← h.aligned.ids]
    exact (List.length_filter_le _ _).trans_eq List.length_range
  have hnone : config.kind = .ivf → db.liveIds = [] := fun hk => by
    have hempty := Index.Sound.size_ivf h.sound (h.kind.trans hk)
    exact List.length_eq_zero_iff.1 (Nat.le_zero.1 (hempty ▸ hlive))
  unfold VDB.compact
  dsimp only
  unfold MetadataStore.permute
  cases forColumns (fun _ c => c.permute db.liveIds) 0 db.metadata.columns with
  | error e cs =>
    refine ⟨?_, False.elim⟩
    exact h.frame rfl ⟨h.sound, rfl, rfl⟩ rfl rfl List.length_mapIdx rfl
  | ok _ cs =>
    dsimp only [Outcome.mapState, Outcome.andThen]
    rw [if_neg fun ht => ht.2 (by rw [hnone (h.configured ▸ ht.1)]; rfl)]
    obtain ⟨hsize, hkind⟩ := Index.size_make db.config
    set rows := db.liveIds.map fun i => (db.intToExt.getD i 0, db.vectors.getD i []) with hrows
    set cleared := VDB.clear (VDB.withMetadata { db with
        vectors := db.vectors.mapIdx fun i v => if db.deleted.getD i false then v else [] }
        { db.metadata.withColumns cs with
          payload := db.liveIds.map fun src => (db.metadata.withColumns cs).payload.getD src []
          rows := db.liveIds.length }) with hcleared
    obtain ⟨db', he, hkept⟩ : ∃ db', appendAll K rows cleared = .ok () db' ∧ db'.Kept config :=
      appendAll_aligned
      h.configured (hkind.trans (congrArg VDBConfig.kind h.configured)) (Index.sound_make _)
      (fun hk => by rw [hrows, hnone hk]; rfl)
      (by
        rw [hrows, List.length_map]
        change (Index.make db.config).size + _ ≤ _
        rw [hsize, Nat.zero_add]
        exact hlive.trans h.size)
      hsize.symm hsize.symm hsize.symm (by
        rw [hrows, List.length_map]
        change _ = (Index.make db.config).size + _
        rw [hsize, Nat.zero_add]
        rfl)
    rw [he]
    exact ⟨hkept, fun _ => trivial⟩

/-- **One call** keeps the alignment, unless an IVF index is to take a vector. -/
theorem Kept.apply (h : db.Kept config) (hop : ∀ lsn, op ≠ .reload lsn) (hroom : db.Room op)
    (hivf : config.kind = .ivf → db.added op = none) :
    db.InStep K op ∧ (db.apply K op).Kept config := by
  have hadd : ∀ vec, db.added op = some vec →
      config.kind ≠ .ivf ∧ db.index.size < config.kind.capacity := fun vec hv => by
    refine ⟨fun hk => ?_, ?_⟩
    · rw [hivf hk] at hv
      cases hv
    · rw [← h.configured]
      exact hroom (by rw [hv]; rfl)
  have hkept : (db.apply K op).Kept config := by
    unfold VDB.apply
    cases op with
    | insert vec rec =>
      refine Outcome.andThen_state (h.insert fun hv => hadd vec ?_) fun _ _ hs => hs
      rw [added, hv]
      rfl
    | insertReserved ext vec rec =>
      refine Outcome.andThen_state (h.insertReserved fun hv => hadd vec ?_) fun _ _ hs => hs
      rw [added, hv]
      rfl
    | remove ext => exact Outcome.andThen_state h.remove fun _ _ hs => hs
    | update ext vec rec =>
      refine Outcome.andThen_state (h.update fun hv hx => hadd vec ?_) fun _ _ hs => hs
      rw [added, hv, hx]
      rfl
    | setMetadata ext rec => exact Outcome.andThen_state h.setMetadata fun _ _ hs => hs
    | compact => exact Outcome.andThen_state h.compact.1 fun _ _ hs => hs
    | reload lsn => exact absurd rfl (hop lsn)
  refine ⟨⟨fun vec hv => ?_, fun _ => h.compact.2, hkept.aligned⟩, hkept⟩
  obtain ⟨hk, hlt⟩ := hadd vec hv
  obtain ⟨index, ha, -⟩ := h.allocateNode (K := K) hk hlt 0 vec
  exact ⟨index, ha⟩

/-- **The alignment** holds along any calls within the capacity of the index, but for an IVF index
that is to take a vector. -/
theorem aligned_run (hnew : VDB.new config = .ok db₀) (ops : List Op)
    (hops : ∀ op ∈ ops, ∀ lsn, op ≠ .reload lsn)
    (hroom : Run.Along (apply K) (fun db op => db.Room op) db₀ ops) :
    Run.Along (apply K) (fun db op => db.InStep K op) db₀ ops ↔
      (config.kind = .ivf → Run.Along (apply K) (fun db op => db.added op = none) db₀ ops) := by
  have hkept := kept_new hnew
  clear hnew
  induction ops generalizing db₀ with
  | nil => exact ⟨fun _ _ => trivial, fun _ => trivial⟩
  | cons op ops ih =>
    obtain ⟨hroom₀, hroom⟩ := hroom
    have hop := hops op List.mem_cons_self
    have hops' := fun op' h' => hops op' (List.mem_cons_of_mem _ h')
    constructor
    · rintro ⟨hstep, halong⟩ hivf
      -- what an IVF index is given, it refuses
      have hnone : db₀.added op = none := by
        refine Option.eq_none_iff_forall_not_mem.2 fun vec hv => ?_
        obtain ⟨index, ha⟩ := hstep.accepts vec hv
        rw [hkept.sound.refuses K db₀.config.metric vec (hkept.kind.trans hivf)] at ha
        cases ha
      have hnext := (hkept.apply (K := K) hop hroom₀ fun _ => hnone).2
      exact ⟨hnone, (ih hops' hroom hnext).1 halong hivf⟩
    · intro h
      have hstep := hkept.apply (K := K) hop hroom₀ fun hk => (h hk).1
      exact ⟨hstep.1, (ih hops' hroom hstep.2).2 fun hk => (h hk).2⟩

theorem aligned_plain :
    let ops := [Op.insert [1] {}, .update 0 [2] none, .compact]
    Run.Along (apply System.onePlace) (fun db op => db.InStep System.onePlace op)
      (plainDb .hnsw) ops ↔
      (IndexKind.hnsw = .ivf →
        Run.Along (apply System.onePlace) (fun db op => db.added op = none) (plainDb .hnsw) ops) :=
  aligned_run (new_plainDb .hnsw) [.insert [1] {}, .update 0 [2] none, .compact] (by simp)
    ⟨fun _ => by decide +kernel, fun _ => by decide +kernel, fun _ => by decide +kernel, trivial⟩

/-- The first insert into an IVF index fails its `assert`. -/
theorem ivf_refused :
    Run.Along (apply System.onePlace) (fun db op => db.Room op) (plainDb .ivf) [.insert [1] {}] ∧
      ¬ Run.Along (apply System.onePlace) (fun db op => db.InStep System.onePlace op) (plainDb .ivf)
        [.insert [1] {}] := by
  refine ⟨⟨fun _ => by decide +kernel, trivial⟩, fun hsteps => ?_⟩
  obtain ⟨index, ha⟩ := hsteps.1.accepts [1] rfl
  cases ha

end VDB

end Database

end Vdb
