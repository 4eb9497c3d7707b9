import Vdb.Database.Follows
import Vdb.Metadata.Lists

/-!
# The arrays of a database

What every phase of a call leaves of the arrays, whatever ids the calls are on and whether they
throw or not: one row for each node, in an index by `X`, in every column by `P`, and the live rows
among those in `S`.

* `VDB.Laid.step` : one call.
-/

namespace Vdb

namespace Database

open Metadata

/-- The record of a call. -/
def Op.record : Op → Option Record
  | .insert _ rec | .insertReserved _ _ rec | .setMetadata _ rec => some rec
  | .update _ _ rec => rec
  | _ => none

/-- What the operations of an index must keep for `X` to be a fact about it and its vectors. -/
structure Index.Keeps {δ : Type} [Distance δ] (K : Kernels δ) (config : VDBConfig)
    (X : Index → List Vec → Prop) : Prop where
  sound : ∀ {x vs}, X x vs → x.Sound ∧ x.kind = config.kind ∧ x.size = vs.length
  make : X (Index.make config) []
  allocate : ∀ {x x' vs vec iid}, X x vs → x.allocate K config.metric vec = .ok iid x' →
    X x' (vs ++ [vec])
  link : ∀ {x vs iid}, X x vs → iid < vs.length → X (x.link K config.metric iid) vs
  undrawn : ∀ {x vs}, X x vs → X x.undrawn vs

/-- An index of the kind of the database, with a node for each vector. -/
def Index.Numbers (config : VDBConfig) (x : Index) (vs : List Vec) : Prop :=
  x.Sound ∧ x.kind = config.kind ∧ x.size = vs.length

theorem Index.keeps_numbers {δ : Type} [Distance δ] (K : Kernels δ) (config : VDBConfig) :
    Index.Keeps K config (Index.Numbers config) where
  sound h := h
  make := ⟨Index.sound_make config, (Index.size_make config).2, (Index.size_make config).1⟩
  allocate {x x' vs vec iid} h ha := by
    obtain ⟨-, hsize, hkind⟩ := Index.allocate_ok ha
    exact ⟨(h.1.allocate ha).1, hkind.trans h.2.1, by rw [hsize, h.2.2, List.length_append]; rfl⟩
  link {x vs iid} h hi := by
    obtain ⟨hsize, hkind⟩ : (x.link K config.metric iid).size = x.size ∧
        (x.link K config.metric iid).kind = x.kind := Index.size_link iid
    exact ⟨h.1.link (h.2.2.symm ▸ hi), hkind.trans h.2.1, hsize.trans h.2.2⟩
  undrawn h := ⟨h.1.undrawn, (Index.kind_undrawn _).trans h.2.1, (Index.size_undrawn _).trans h.2.2⟩

namespace VDB

variable {ι δ : Type} [ColumnIndex ι] [Distance δ] {K : Kernels δ} {config : VDBConfig}
  {X : Index → List Vec → Prop} {P P' : ℕ → Column ι → ℕ → Prop} {A : ℕ → AttrValue → Prop}
  {Q : (InternalId → Prop) → ℕ → Column ι → ℕ → Prop} {S : InternalId → Prop} {db db' db₀ : VDB ι}
  {ext : ExternalId} {i iid old : InternalId} {vec : Vec} {rec : Record} {op : Op}

/-- The row is not marked as deleted. -/
def IsLive (db : VDB ι) (i : InternalId) : Prop := db.deleted[i]? = some false

/-- Every array has one row for each vector, and the live rows are among those in `S`. -/
structure Laid (X : Index → List Vec → Prop) (P : ℕ → Column ι → ℕ → Prop) (S : InternalId → Prop)
    (config : VDBConfig) (db : VDB ι) : Prop where
  configured : db.config = config
  index : X db.index db.vectors
  ids : db.intToExt.length = db.vectors.length
  deleted : db.deleted.length = db.vectors.length
  metadata : db.metadata.ShapedBy P config.schema db.vectors.length
  live : ∀ i, db.IsLive i → S i

omit [Distance δ] in
theorem laid_new (hX : X (Index.make config) []) (hnew : VDB.new config = .ok db)
    (hP : ∀ a spec, config.schema[a]? = some spec → P a (Column.new spec) 0) :
    db.Laid X P S config := by
  unfold VDB.new at hnew
  cases hm : (MetadataStore.new config.schema : Except Exn (MetadataStore ι)) with
  | error e =>
    rw [hm] at hnew
    cases hnew
  | ok m =>
    rw [hm] at hnew
    cases hnew
    exact
    { configured := rfl, index := hX, ids := rfl, deleted := rfl
      metadata := ⟨[], rfl, MetadataStore.holds_new hm hP⟩
      live := fun i hi => by cases hi }

omit [ColumnIndex ι] [Distance δ] in
/-- A change that adds no row and drops none. -/
theorem Laid.frame (h : db.Laid X P S config) (hconfig : db'.config = db.config)
    (hindex : X db'.index db.vectors) (hids : db'.intToExt = db.intToExt)
    (hdeleted : db'.deleted.length = db.deleted.length) (hvectors : db'.vectors = db.vectors)
    (hmetadata : db'.metadata.ShapedBy P config.schema db.vectors.length)
    (hlive : ∀ i, db'.IsLive i → S i) : db'.Laid X P S config where
  configured := hconfig.trans h.configured
  index := hvectors.symm ▸ hindex
  ids := by rw [hids, hvectors, h.ids]
  deleted := by rw [hdeleted, hvectors, h.deleted]
  metadata := hvectors.symm ▸ hmetadata
  live := hlive

omit [Distance δ] in
theorem Laid.goLive (hP : Column.Rowwise P A) (h : db.Laid X P S config) (hS : S iid) :
    (db.goLive iid).state.Laid X P S config := by
  unfold VDB.goLive
  dsimp only
  rw [Outcome.state_mapState]
  refine h.frame rfl h.index rfl List.length_set rfl (h.metadata.adjust hP iid true) fun i hi => ?_
  change (db.deleted.set iid false)[i]? = some false at hi
  rw [List.getElem?_set] at hi
  split_ifs at hi with hne
  · exact hne ▸ hS
  · exact h.live i hi

omit [Distance δ] in
theorem Laid.goDead (hP : Column.Rowwise P A) (h : db.Laid X P S config) (iid : InternalId) :
    (db.goDead iid).state.Laid X P S config := by
  unfold VDB.goDead
  dsimp only
  rw [Outcome.state_mapState]
  refine h.frame rfl h.index rfl List.length_set rfl (h.metadata.adjust hP iid false) fun i hi => ?_
  change (db.deleted.set iid true)[i]? = some false at hi
  rw [List.getElem?_set] at hi
  split_ifs at hi
  · cases hi
  · exact h.live i hi

omit [Distance δ] in
theorem Laid.insertPublish (hP : Column.Rowwise P A) (h : db.Laid X P S config) (hS : S iid) :
    (db.insertPublish ext iid).state.Laid X P S config :=
  Outcome.andThen_state (h.goLive hP hS) fun _ _ hs =>
    hs.frame rfl hs.index rfl rfl rfl hs.metadata hs.live

omit [Distance δ] in
theorem Laid.updatePublish (hP : Column.Rowwise P A) (h : db.Laid X P S config) (hS : S iid) :
    (db.updatePublish ext old iid).state.Laid X P S config :=
  Outcome.andThen_state (h.goLive hP hS) fun _ s hs => by
    have hcounted : { s with deletedCount := s.deletedCount + 1 }.Laid X P S config :=
      hs.frame rfl hs.index rfl rfl rfl hs.metadata hs.live
    exact Outcome.andThen_state (hcounted.goDead hP old) fun _ _ hs =>
      hs.frame rfl hs.index rfl rfl rfl hs.metadata hs.live

omit [Distance δ] in
theorem Laid.remove (hP : Column.Rowwise P A) (h : db.Laid X P S config) :
    (db.remove ext).state.Laid X P S config := by
  unfold VDB.remove
  cases db.extToInt ext with
  | none => exact h
  | some iid =>
    exact Outcome.andThen_state (h.goDead hP iid) fun _ _ hs =>
      hs.frame rfl hs.index rfl rfl rfl hs.metadata hs.live

omit [Distance δ] in
/-- The record is written row by row into the columns, each of which must take its value. -/
theorem Laid.setMetadata (h : db.Laid X P S config)
    (hset : db.validate rec = .ok () → ∀ iid, db.extToInt ext = some iid →
      ∀ a c, db.metadata.columns[a]? = some c →
      (rec.attr a).isNull = true ∨ (rec.attr a).type = c.type → P a c db.vectors.length →
      P a (c.setRow iid (rec.attr a)).state db.vectors.length) :
    (db.setMetadata ext rec).state.Laid X P S config := by
  unfold VDB.setMetadata
  cases hv : db.validate rec with
  | error e => exact h
  | ok _ =>
    cases hext : db.extToInt ext with
    | none => exact h
    | some iid =>
      refine Outcome.andThen_state ?_ fun _ _ hs => hs
      rw [Outcome.state_mapState]
      refine h.frame rfl h.index rfl rfl rfl (h.metadata.setRow iid fun a c hc => ?_) h.live
      exact hset hv iid hext a c hc (h.metadata.typed hv hc) (h.metadata.column hc)

omit [ColumnIndex ι] in
/-- A pending node is pushed, with its metadata. -/
theorem Laid.push (hX : Index.Keeps K config X) (h : db.Laid X P S config) {index : Index}
    (ha : db.index.allocate K db.config.metric vec = .ok iid index) {metadata : MetadataStore ι}
    (hm : metadata.ShapedBy P config.schema (db.vectors.length + 1)) (n k : ℕ) :
    { db with
      index, intToExt := db.intToExt ++ [ext], deleted := db.deleted ++ [true]
      vectors := db.vectors ++ [vec], deletedCount := k, metadata, nextExtId := n }.Laid X P S
        config where
  configured := h.configured
  index := hX.allocate h.index (h.configured ▸ ha)
  ids := by rw [List.length_append, List.length_append, h.ids]; rfl
  deleted := by rw [List.length_append, List.length_append, h.deleted]; rfl
  metadata := by
    rw [List.length_append]
    exact hm
  live i hi := by
    change (db.deleted ++ [true])[i]? = some false at hi
    rcases Tally.getElem?_concat_iff.1 hi with hi | ⟨-, hi⟩
    · exact h.live i hi
    · cases hi

omit [ColumnIndex ι] [Distance δ] in
theorem Laid.schema (h : db.Laid X P S config) : db.metadata.schema = config.schema := by
  obtain ⟨rows, -, hrows⟩ := h.metadata
  exact hrows.declared

/-- **Phase 1** of an insert, if no `assert` fails. -/
theorem Laid.insertAllocate (hX : Index.Keeps K config X) (hP : Column.Rowwise P A)
    (h : db.Laid X P S config) (hv : Metadata.validate config.schema rec = .ok ())
    (hA : ∀ a, A a (rec.attr a)) (hs : ¬ (db.insertAllocate K ext vec rec).Aborted) :
    (db.insertAllocate K ext vec rec).state.Laid X P S config ∧
      ∀ iid s, db.insertAllocate K ext vec rec = .ok iid s →
        iid = db.vectors.length ∧ s.vectors.length = db.vectors.length + 1 := by
  unfold VDB.insertAllocate at hs ⊢
  rcases allocateNode_cases K db ext vec with ⟨e, ha, -⟩ | ⟨s, ha⟩ | ⟨iid, db₁, ha⟩
  · rw [ha]
    exact ⟨h, nofun⟩
  · rw [ha] at hs
    exact absurd rfl hs
  · obtain ⟨index, hindex, rfl, rfl⟩ := allocateNode_ok ha
    obtain ⟨m, hm, hshape⟩ := h.metadata.appendRow hP (h.schema ▸ hv) hA
    rw [ha]
    dsimp only [Outcome.andThen]
    rw [hm]
    dsimp only [Outcome.mapState, VDB.withMetadata, VDB.keepAhead]
    refine ⟨?_, fun iid s hok => ?_⟩
    · split_ifs
      · exact h.push hX hindex hshape _ _
      · exact h.push hX hindex hshape _ _
    · cases hok
      refine ⟨h.ids, ?_⟩
      split_ifs <;> exact List.length_append

/-- Phase 1 of an update. -/
theorem Laid.updateAllocate (hX : Index.Keeps K config X) (hP : Column.Rowwise P A)
    (h : db.Laid X P S config) {rec : Option Record}
    (hv : ∀ r ∈ rec, Metadata.validate config.schema r = .ok ())
    (hA : ∀ r ∈ rec, ∀ a, A a (r.attr a)) (hs : ¬ (db.updateAllocate K ext vec rec).Aborted) :
    (db.updateAllocate K ext vec rec).state.Laid X P S config ∧
      ∀ nodes s, db.updateAllocate K ext vec rec = .ok (some nodes) s →
        nodes.2 = db.vectors.length ∧ s.vectors.length = db.vectors.length + 1 := by
  unfold VDB.updateAllocate at hs ⊢
  cases hx : db.extToInt ext with
  | none => exact ⟨h, nofun⟩
  | some old =>
    rw [hx] at hs
    dsimp only at hs ⊢
    rcases allocateNode_cases K db ext vec with ⟨e, ha, -⟩ | ⟨s, ha⟩ | ⟨iid, db₁, ha⟩
    · rw [ha]
      exact ⟨h, nofun⟩
    · rw [ha] at hs
      exact absurd rfl hs
    · obtain ⟨index, hindex, rfl, rfl⟩ := allocateNode_ok ha
      rw [ha]
      dsimp only [Outcome.andThen]
      cases rec with
      | none =>
        refine ⟨h.push hX hindex (h.metadata.appendRowCopy hP old) _ _, fun nodes s hok => ?_⟩
        cases hok
        exact ⟨h.ids, List.length_append⟩
      | some rec =>
        obtain ⟨m, hm, hshape⟩ := h.metadata.appendRow hP (h.schema ▸ hv rec rfl) (hA rec rfl)
        dsimp only [VDB.appendMetadata]
        rw [hm]
        refine ⟨h.push hX hindex hshape _ _, fun nodes s hok => ?_⟩
        cases hok
        exact ⟨h.ids, List.length_append⟩

omit [ColumnIndex ι] in
theorem Laid.link (hX : Index.Keeps K config X) (h : db.Laid X P S config)
    (hi : iid < db.vectors.length) : (db.link K iid).Laid X P S config := by
  have hindex : X (db.index.link K db.config.metric iid) db.vectors := by
    rw [h.configured]
    exact hX.link h.index hi
  exact h.frame rfl hindex rfl rfl rfl h.metadata h.live

/-- **An insert** that fails no `assert`. -/
theorem Laid.insertReserved (hX : Index.Keeps K config X) (hP : Column.Rowwise P A)
    (h : db.Laid X P S config) (hS : S db.vectors.length) (hA : ∀ a, A a (rec.attr a))
    (hs : ¬ (db.insertReserved K ext vec rec).Aborted) :
    (db.insertReserved K ext vec rec).state.Laid X P S config := by
  unfold VDB.insertReserved at hs ⊢
  cases hv : db.validate rec with
  | error e => exact h
  | ok _ =>
    rw [hv] at hs
    obtain ⟨hlaid, hnode⟩ := h.insertAllocate hX hP (h.schema ▸ hv) hA fun hab => hs hab.andThen
    dsimp only at hs ⊢
    cases ha : db.insertAllocate K ext vec rec with
    | error e s =>
      rw [ha] at hlaid
      exact hlaid
    | ok iid s =>
      rw [ha] at hlaid
      obtain ⟨rfl, hlen⟩ := hnode iid s ha
      exact (Laid.link hX hlaid
        (by rw [Outcome.state, hlen]; exact Nat.lt_succ_self _)).insertPublish
        hP hS

theorem Laid.insert (hX : Index.Keeps K config X) (hP : Column.Rowwise P A)
    (h : db.Laid X P S config) (hS : S db.vectors.length) (hA : ∀ a, A a (rec.attr a))
    (hs : ¬ (db.insert K vec rec).Aborted) : (db.insert K vec rec).state.Laid X P S config := by
  unfold VDB.insert at hs ⊢
  cases hv : db.validate rec with
  | error e => exact h
  | ok _ =>
    rw [hv] at hs
    have hnext : db.reserveId.2.Laid X P S config :=
      h.frame rfl h.index rfl rfl rfl h.metadata h.live
    exact Outcome.andThen_state
      (hnext.insertReserved hX hP hS hA fun hab => hs hab.andThen) fun _ _ hs => hs

/-- **An update** that fails no `assert`. -/
theorem Laid.update (hX : Index.Keeps K config X) (hP : Column.Rowwise P A)
    (h : db.Laid X P S config) (hS : S db.vectors.length) {rec : Option Record}
    (hA : ∀ r ∈ rec, ∀ a, A a (r.attr a)) (hs : ¬ (db.update K ext vec rec).Aborted) :
    (db.update K ext vec rec).state.Laid X P S config := by
  unfold VDB.update at hs ⊢
  cases hv : db.validateUpdate rec with
  | error e => exact h
  | ok _ =>
    rw [hv] at hs
    have hrec : ∀ r ∈ rec, Metadata.validate config.schema r = .ok () := by
      rintro r ⟨⟩
      exact h.schema ▸ hv
    obtain ⟨hlaid, hnode⟩ := h.updateAllocate hX hP hrec hA fun hab => hs hab.andThen
    dsimp only at hs ⊢
    cases ha : db.updateAllocate K ext vec rec with
    | error e s =>
      rw [ha] at hlaid
      exact hlaid
    | ok nodes s =>
      rw [ha] at hlaid
      cases nodes with
      | none => exact hlaid
      | some nodes =>
        obtain ⟨old, iid⟩ := nodes
        obtain ⟨hiid, hlen⟩ := hnode _ s ha
        dsimp only at hiid
        subst hiid
        dsimp only [Outcome.andThen]
        exact Outcome.andThen_state ((Laid.link hX hlaid
          (by rw [Outcome.state, hlen]; exact Nat.lt_succ_self _)).updatePublish hP hS)
            fun _ _ hs => hs

/-! ### Laying the rows out anew -/

omit [ColumnIndex ι] in
/-- What appending the live rows one by one leaves of the arrays. -/
theorem appendAll_laid (hX : Index.Keeps K config X) {rows : List (ExternalId × Vec)}
    (hconfig : db.config = config) (hindex : X db.index db.vectors)
    (hids : db.intToExt.length = db.vectors.length)
    (hdeleted : db.deleted.length = db.vectors.length)
    (hmetadata : db.metadata.ShapedBy P config.schema (db.vectors.length + rows.length))
    (he : appendAll K rows db = .ok () db') : db'.Laid X P (fun _ => True) config := by
  induction rows generalizing db with
  | nil =>
    cases he
    exact ⟨hconfig, hindex, hids, hdeleted, hmetadata, fun _ _ => trivial⟩
  | cons r rows ih =>
    obtain ⟨ext, vec⟩ := r
    rw [appendAll] at he
    obtain ⟨iid, db₁, happend, hrest⟩ := Outcome.andThen_ok he
    unfold VDB.append Index.add at happend
    cases ha : db.index.allocate K db.config.metric vec with
    | error e index =>
      rw [ha] at happend
      cases happend
    | ok id index =>
      rw [ha] at happend
      dsimp only at happend
      split_ifs at happend with hid
      cases happend
      have hpushed : X index (db.vectors ++ [vec]) := hX.allocate hindex (hconfig ▸ ha)
      have hlast : id < (db.vectors ++ [vec]).length := by
        rw [not_not.1 hid, hids, List.length_append]
        exact Nat.lt_succ_self _
      refine ih ?_ ?_ ?_ ?_ ?_ hrest
      · exact hconfig
      · change X (index.link K db.config.metric id) (db.vectors ++ [vec])
        rw [hconfig]
        exact hX.link hpushed hlast
      · change (db.intToExt ++ [ext]).length = (db.vectors ++ [vec]).length
        rw [List.length_append, List.length_append, hids]
        rfl
      · change (db.deleted ++ [false]).length = (db.vectors ++ [vec]).length
        rw [List.length_append, List.length_append, hdeleted]
        rfl
      · change db.metadata.ShapedBy P config.schema ((db.vectors ++ [vec]).length + rows.length)
        rwa [List.length_append, List.length_singleton, Nat.add_assoc, Nat.add_comm 1]

/-- **A compaction** that returns. -/
theorem Laid.compact (hX : Index.Keeps K config X) (h : db.Laid X P S config)
    (hpermute : ∀ a c c', P a c db.vectors.length → c.permute db.liveIds = .ok () c' →
      P' a c' db.liveIds.length)
    (hs : (db.compact K).Returns) : (db.compact K).state.Laid X P' (fun _ => True) config := by
  cases hc : db.compact K with
  | error e db' =>
    rw [hc] at hs
    exact hs.elim
  | ok u db' =>
    unfold VDB.compact at hc
    dsimp only at hc
    obtain ⟨_, db₁, hp, hrest⟩ := Outcome.andThen_ok hc
    obtain ⟨m, hm, rfl⟩ := Outcome.mapState_ok hp
    have hmeta : m.ShapedBy P' config.schema db.liveIds.length :=
      h.metadata.permute (fun a c c' hc => hpermute a c c' (h.metadata.column hc)) hm
    have hnone : db.config.kind = .ivf → db.liveIds = [] := fun hk => by
      obtain ⟨hsound, hkind, hsize⟩ := hX.sound h.index
      rw [h.configured] at hk
      unfold VDB.liveIds
      rw [h.ids, ← hsize, Index.Sound.size_ivf hsound (hkind.trans hk)]
      rfl
    rw [if_neg fun ht => ht.2 (by rw [hnone ht.1]; rfl)] at hrest
    refine appendAll_laid hX ?_ ?_ ?_ ?_ ?_ hrest
    · exact h.configured
    · change X (Index.make db.config) []
      rw [h.configured]
      exact hX.make
    · rfl
    · rfl
    · change m.ShapedBy P' config.schema (0 + _)
      rwa [Nat.zero_add, List.length_map]

omit [Distance δ] in
/-- **A reload** that returns.  `Q N` is what holds of a column whose rows in `N` have been rebuilt.
-/
theorem Laid.reload {lsn : ℕ} (h : db.Laid X P S config) (hsound : db.index.Sound)
    (hkind : db.index.kind = config.kind)
    (hundrawn : X db.index.undrawn db.vectors) (hsized : ∀ a c n, P a c n → c.Sized n)
    (hgot : ∀ {a c n} spec, config.schema[a]? = some spec → P a c n →
      Q (fun _ => False) a (c.reread (Column.new spec)).clearDerived n)
    (hrow : ∀ {a c c' n i N}, Q N a c n → i < n → ¬ N i → c.rebuildRow i = .ok () c' →
      Q (fun j => N j ∨ j = i) a c' n)
    (hdim : db.config.dim < 2 ^ 32) (hw : db.WordSized lsn) (hrebuilds : db.Rebuilds) :
    (db.reload lsn).Laid X (Q db.IsLive) db.IsLive config := by
  obtain rfl : db.config = config := h.configured
  obtain ⟨rows, hlen, hs, hstatus⟩ := h.metadata.step rfl rfl rfl (fun a c hc =>
    ⟨c, hc, rfl, h.metadata.column hc⟩) h.metadata.counts.1 h.metadata.counts.2
    fun i => if db.deleted.getD i false then .dead else .live
  obtain ⟨t, ht⟩ := MetadataStore.new_ok (ι := ι) hs.checked
  have hlive : ∀ i r, rows[i]? = some r → db.deleted.getD i false = !r.isLive := fun i r hi => by
    rw [Row.isLive, hstatus i r hi]
    split_ifs with hd
    · exact hd
    · exact Bool.eq_false_iff.2 hd
  cases hm' : db.metadata.reread.rebuildDerivedState db.deleted with
  | error e m' =>
    unfold Rebuilds at hrebuilds
    rw [hm'] at hrebuilds
    exact hrebuilds.elim
  | ok _ m' =>
    rw [reload_eq hdim hw (h.deleted.trans h.ids.symm) h.ids.symm ht
      (hs.rereads (fun a c rows hc => hsized a c _ hc) hw.sizes.metadata hw.dict ht)
      (hsound.reads hw.sizes.index hkind) hm']
    have hstore : m'.Holds (fun a c (rows : List ColRow) =>
        Q (fun i => ∃ v, rows[i]? = some (true, v)) a c rows.length) db.config.schema rows := by
      refine hs.rebuildReread (fun {a c rows} spec hspec hc => ?_)
        (fun {a c c' rows i v} hc hi hr => ?_) hlive hm'
      · have hnone : (fun i : InternalId => ∃ v, (Column.unpublished rows)[i]? = some (true, v)) =
            fun _ => False := by
          funext i
          rw [Column.unpublished, List.getElem?_map]
          cases rows[i]? <;> simp
        rw [hnone, Column.unpublished, List.length_map]
        exact hgot spec hspec hc
      · have hlt := (List.getElem?_eq_some_iff.1 hi).1
        have hset : (fun j : InternalId => ∃ w, (rows.set i (true, v))[j]? = some (true, w)) =
            fun j => (∃ w, rows[j]? = some (true, w)) ∨ j = i := by
          funext j
          rw [List.getElem?_set]
          by_cases hij : i = j
          · simp [hij, hij ▸ hlt]
          · simp [hij, Ne.symm hij]
        rw [hset, List.length_set]
        refine hrow hc hlt ?_ hr
        rintro ⟨w, hw⟩
        rw [hi] at hw
        cases hw
    have hpublished : ∀ a, (fun i : InternalId => ∃ v, (rows.map (Row.col a))[i]? =
      some (true, v)) =
        db.IsLive := fun a => by
      funext i
      unfold IsLive
      rw [List.getElem?_map]
      cases hi : rows[i]? with
      | none =>
        have hle : db.deleted.length ≤ i := by
          rw [h.deleted, ← hlen]
          exact List.getElem?_eq_none_iff.1 hi
        simp [List.getElem?_eq_none hle]
      | some r =>
        have hlt : i < db.deleted.length := by
          rw [h.deleted, ← hlen]
          exact (List.getElem?_eq_some_iff.1 hi).1
        have hd := hlive i r hi
        rw [List.getD_eq_getElem _ _ hlt] at hd
        simp [Row.col, List.getElem?_eq_getElem hlt, hd]
    refine ⟨rfl, hundrawn, h.ids, h.deleted, ⟨rows, hlen, hstore.mono fun a c _ hc => ?_⟩,
      fun i hi => hi⟩
    rwa [hpublished] at hc

/-! ### Any call -/

/-- The call leaves a database: no `assert` fails, and a compaction or a reload returns. -/
def Leaves (K : Kernels δ) (db : VDB ι) : Op → Prop
  | .insert vec rec => ¬ (db.insert K vec rec).Aborted
  | .insertReserved ext vec rec => ¬ (db.insertReserved K ext vec rec).Aborted
  | .update ext vec rec => ¬ (db.update K ext vec rec).Aborted
  | .compact => (db.compact K).Returns
  | .reload lsn => db.config.dim < 2 ^ 32 ∧ db.WordSized lsn ∧ db.Rebuilds
  | _ => True

instance (K : Kernels δ) (db : VDB ι) (op : Op) : Decidable (db.Leaves K op) := by
  cases op <;> unfold Leaves <;> infer_instance

variable {P : (InternalId → Prop) → ℕ → Column ι → ℕ → Prop}

theorem Laid.live_only (hP : Column.Survives config.schema A P Q) (h : db.Laid X (P S) S config) :
    db.Laid X (P db.IsLive) db.IsLive config :=
  { h with metadata := h.metadata.mono fun _ _ hc => hP.mono hc fun i _ hi => h.live i hi
           live := fun _ => id }

/-- **One call** keeps what is known of the columns, if overwriting a row does. -/
theorem Laid.step (hX : Index.Keeps K config X) (hP : Column.Survives config.schema A P Q)
    (h : db.Laid X (P db.IsLive) db.IsLive config) (hl : db.Leaves K op)
    (hA : ∀ rec ∈ op.record, ∀ a, A a (rec.attr a))
    (hset : ∀ ext rec, op = .setMetadata ext rec → db.validate rec = .ok () → ∀ iid,
      db.extToInt ext = some iid → ∀ S a c n, db.metadata.columns[a]? = some c →
      (rec.attr a).isNull = true ∨ (rec.attr a).type = c.type → P S a c n →
      P S a (c.setRow iid (rec.attr a)).state n) :
    (db.apply K op).Laid X (P (db.apply K op).IsLive) (db.apply K op).IsLive config := by
  have hlive : db.Laid X (P fun i => db.IsLive i ∨ i = db.vectors.length)
      (fun i => db.IsLive i ∨ i = db.vectors.length) config :=
    { h with
      metadata := h.metadata.mono fun _ _ hc => hP.mono hc fun i hi hs => hs.resolve_right hi.ne
      live := fun _ => .inl }
  have hrow := hP.rowwise fun i => db.IsLive i ∨ i = db.vectors.length
  have hstate : ∀ {α β : Type} {o : Outcome (VDB ι) α} {f : α → β},
      (o.andThen fun b db => .ok (f b) db).state = o.state := by
    rintro α β (⟨b, s⟩ | ⟨e, s⟩) f <;> rfl
  unfold VDB.apply
  cases op with
  | insert vec rec =>
    exact hstate.symm ▸ (hlive.insert hX hrow (.inr rfl) (hA rec rfl) hl).live_only hP
  | insertReserved ext vec rec =>
    exact hstate.symm ▸ (hlive.insertReserved hX hrow (.inr rfl) (hA rec rfl) hl).live_only hP
  | update ext vec rec =>
    exact hstate.symm ▸ (hlive.update hX hrow (.inr rfl) hA hl).live_only hP
  | remove ext => exact hstate.symm ▸ (hlive.remove hrow).live_only hP
  | setMetadata ext rec =>
    exact hstate.symm ▸ (hlive.setMetadata fun hv iid hext a c hc htyped hcol =>
      hset ext rec rfl hv iid hext _ a c _ hc htyped hcol).live_only hP
  | compact =>
    exact hstate.symm ▸ (hlive.compact hX (fun _ _ _ hc he => hP.permute hc he) hl).live_only hP
  | reload lsn =>
    obtain ⟨hdim, hsized, hrebuilds⟩ := hl
    obtain ⟨hsound, hkind, -⟩ := hX.sound h.index
    have hreload := h.reload hsound hkind (hX.undrawn h.index)
      (fun _ _ _ hc => (hP.rowwise _).sized hc)
      (fun spec hspec hc => hP.reread spec hspec hc)
      (fun hc hlt hi he => hP.rebuildRow hc hlt hi he) hdim hsized hrebuilds
    exact Laid.live_only hP
      { hreload with metadata := hreload.metadata.mono fun _ _ hc => hP.rebuilt hc }

omit [Distance δ] in
theorem laid_start (hX : X (Index.make config) []) (hP : Column.Survives config.schema A P Q)
    (hnew : VDB.new config = .ok db₀) : db₀.Laid X (P db₀.IsLive) db₀.IsLive config := by
  have hlaid : db₀.Laid X (P fun _ => True) (fun _ => True) config :=
    laid_new hX hnew fun _ spec hspec => hP.new spec hspec
  exact hlaid.live_only hP

end VDB

end Database

end Vdb
