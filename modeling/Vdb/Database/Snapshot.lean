import Vdb.Database.Image
import Vdb.Database.Interleaving
import Mathlib.Data.List.Induction

/-!
# Snapshots

`save_snapshot` and `load_snapshot`, as the bytes of the file and a reader of them.  The maps from
external to internal ids, the counts, the postings and the B+-trees are not in the file; `load`
derives them from what it has read.

* `System.load_save_run` : in every state that concurrent calls and reloads reach, a snapshot is
  read back exactly, and a search finds the same rows before and after.
* `System.wide_vectors_mismatch` : the dimension is written as a 32-bit number.
-/

namespace Vdb

namespace Database

open Metadata Reader
open VDB (Lives)

namespace VDB

variable {ι : Type} [ColumnIndex ι] (db : VDB ι)

/-- `save_snapshot`: the bytes of the file. -/
def save (lsn : ℕ) : Bytes :=
  putNat 4 0x56444253 ++ (putNat 2 2 ++ (putNat 4 db.config.dim ++
    (putNat 1 db.config.metric.toByte ++ (putNat 8 lsn ++
    (putNat 8 db.nextExtId ++ (putNat 8 db.liveCount ++ (putNat 8 db.deletedCount ++
    (putNat 8 db.intToExt.length ++ (db.intToExt.flatMap (putNat 8) ++
    (putNat 8 db.deleted.length ++ (db.deleted.flatMap (fun d => [if d then 1 else 0]) ++
    (putNat 8 db.vectors.length ++ (db.vectors.flatMap putVec ++
    (db.metadata.serialize ++ db.index.serialize))))))))))))))

/-- The map of the rows that are not deleted; a later row takes an id over from an earlier one. -/
def liveMap (intToExt : List ExternalId) (deleted : List Bool) : ExternalId → Option InternalId :=
  intToExt.zipIdx.foldl (fun map e =>
    if deleted.getD e.2 false then map else Function.update map e.1 (some e.2)) fun _ => none

/-- `rebuild_derived_state` of a store that has been read. -/
def rebuilt (deleted : List Bool) (metadata : MetadataStore ι) : Reader Exn (MetadataStore ι) :=
  match metadata.rebuildDerivedState deleted with
  | .ok _ metadata => pure metadata
  | .error e _ => throw e

/-- `load_snapshot` into this database, with the lsn of the file. -/
def load : Reader Exn (ℕ × VDB ι) := do
  let magic ← getNumber 4
  if magic ≠ 0x56444253 then throw (.runtimeError (ascii "snapshot bad magic"))
  let version ← getNumber 2
  if version ≠ 2 then throw (.runtimeError (ascii "snapshot bad version"))
  let dim ← getNumber 4
  let metric ← getNumber 1
  if dim ≠ db.config.dim ∨ metric ≠ db.config.metric.toByte then
    throw (.runtimeError (ascii "snapshot config mismatch"))
  let lsn ← getNumber 8
  let nextExtId ← getNumber 8
  let liveCount ← getNumber 8
  let deletedCount ← getNumber 8
  let nExt ← getNumber 8
  let intToExt ← Reader.many (getNumber 8) nExt
  let nDel ← getNumber 8
  let flags ← Reader.many (getNumber 1) nDel
  let deleted := flags.map fun d => decide (d ≠ 0)
  let nVec ← getNumber 8
  let vectors ← Reader.many getVec nVec
  let metadata ← db.metadata.deserialize
  let metadata ← rebuilt deleted metadata
  let index ← (Index.make db.config).deserialize
  pure (lsn, { db with
    index, extToInt := liveMap intToExt deleted, intToExt, deleted, vectors, metadata
    nextExtId, liveCount, deletedCount })

/-- What is loaded has the configuration and the schema of the database it is loaded into. -/
theorem load_config (db : VDB ι) : db.load.Ensures fun p =>
    p.2.config = db.config ∧ p.2.metadata.fingerprint = db.metadata.fingerprint := by
  have hread : db.metadata.deserialize.Ensures fun m =>
      m.fingerprint = db.metadata.fingerprint := by
    unfold MetadataStore.deserialize
    refine ensures_bind fun _ => ?_
    split_ifs
    · exact Ensures.bind (ensures_throw _ fun _ => False) fun _ h => h.elim
    refine ensures_bind fun _ => ensures_bind fun _ => ?_
    split_ifs
    · exact Ensures.bind (ensures_throw _ fun _ => False) fun _ h => h.elim
    exact ensures_bind fun _ => ensures_bind fun _ => ensures_bind fun _ => ensures_pure rfl
  have hrebuilt : ∀ (deleted : List Bool) (m : MetadataStore ι),
      (rebuilt deleted m).Ensures fun m' => m'.fingerprint = m.fingerprint := by
    intro deleted m bs m' rest h
    unfold rebuilt at h
    cases he : m.rebuildDerivedState deleted with
    | error e t =>
      rw [he] at h
      cases h
    | ok _ t =>
      rw [he] at h
      cases h
      obtain ⟨cs, -, rfl⟩ := Outcome.mapState_ok he
      rfl
  unfold load
  refine ensures_bind fun _ => ?_
  split_ifs
  · exact Ensures.bind (ensures_throw _ fun _ => False) fun _ h => h.elim
  refine ensures_bind fun _ => ?_
  split_ifs
  · exact Ensures.bind (ensures_throw _ fun _ => False) fun _ h => h.elim
  refine ensures_bind fun _ => ensures_bind fun _ => ?_
  split_ifs
  · exact Ensures.bind (ensures_throw _ fun _ => False) fun _ h => h.elim
  refine ensures_bind fun _ => ensures_bind fun _ => ensures_bind fun _ => ensures_bind fun _ =>
    ensures_bind fun _ => ensures_bind fun _ => ensures_bind fun _ => ensures_bind fun _ =>
    ensures_bind fun _ => ensures_bind fun _ => ?_
  refine hread.bind fun m hm => (hrebuilt _ m).bind fun m' hm' => ensures_bind fun _ => ?_
  exact ensures_pure ⟨rfl, hm'.trans hm⟩

/-- A fresh database loads what this one has saved, and takes its place. -/
def reload (lsn : ℕ) : VDB ι :=
  match (VDB.new db.config : Except Exn (VDB ι)) with
  | .error _ => db
  | .ok db₀ =>
    match db₀.load (db.save lsn) with
    | .error _ => db
    | .ok ((_, db), _) => db

/-- The sizes of the containers and the ids are 64-bit numbers. -/
structure SizesFit : Prop where
  nextExtId : db.nextExtId < 2 ^ 64
  ids : ∀ x ∈ db.intToExt, x < 2 ^ 64
  rows : db.intToExt.length < 2 ^ 64
  vectors : ∀ v ∈ db.vectors, v.length < 2 ^ 64
  metadata : db.metadata.SizesFit
  index : db.index.SizesFit

instance : Decidable db.SizesFit :=
  decidable_of_iff (db.nextExtId < 2 ^ 64 ∧ (∀ x ∈ db.intToExt, x < 2 ^ 64) ∧
      db.intToExt.length < 2 ^ 64 ∧ (∀ v ∈ db.vectors, v.length < 2 ^ 64) ∧
      db.metadata.SizesFit ∧ db.index.SizesFit)
    ⟨fun h => ⟨h.1, h.2.1, h.2.2.1, h.2.2.2.1, h.2.2.2.2.1, h.2.2.2.2.2⟩,
      fun h => ⟨h.nextExtId, h.ids, h.rows, h.vectors, h.metadata, h.index⟩⟩

/-- No B+-tree is full when the trees are built again from the rows. -/
def Rebuilds : Prop := (db.metadata.reread.rebuildDerivedState db.deleted).Returns

instance : Decidable db.Rebuilds := inferInstanceAs (Decidable (Outcome.Returns _))

variable {db} {db₀ db' : VDB ι} {J : ℕ → Column ι → List ColRow → Prop} {config : VDBConfig}
  {es : List Entry} {lsn : ℕ} {e : Entry} {x : ExternalId} {i : InternalId}

theorem reads_flags (l : List Bool) :
    (many (getNumber 1) l.length).Reads (l.flatMap fun d => [if d then 1 else 0])
      (l.map Bool.toNat) := by
  refine reads_many fun d _ => ?_
  have hr := reads_nat truncated (w := 1) (n := d.toNat) (by cases d <;> simp)
  rwa [show putNat 1 d.toNat = [if d then (1 : UInt8) else 0] by cases d <;> rfl] at hr

theorem flags_toNat (l : List Bool) : (l.map Bool.toNat).map (fun d => decide (d ≠ 0)) = l := by
  rw [List.map_map]
  refine (List.map_congr_left fun d _ => ?_).trans (List.map_id _)
  cases d <;> rfl

/-- A load under another dimension, in 32 bits, or metric throws. -/
theorem load_fails (db₀ : VDB ι) (lsn : ℕ) (h : db.config.dim % 2 ^ 32 ≠ db₀.config.dim ∨
    db.config.metric ≠ db₀.config.metric) : db₀.load.Fails (db.save lsn) := by
  have hbyte : db.config.metric.toByte < 256 ^ 1 := by cases db.config.metric <;> decide
  have hconfig : db.config.dim % 256 ^ 4 ≠ db₀.config.dim ∨
      db.config.metric.toByte ≠ db₀.config.metric.toByte := by
    refine h.imp_right fun hne heq => hne ?_
    revert heq
    cases db.config.metric <;> cases db₀.config.metric <;> decide
  unfold load save
  refine (reads_nat truncated (by decide)).bind_fails ?_
  rw [if_neg (by simp)]
  refine Reads.bind_fails (reads_nat truncated (by decide)) ?_
  rw [if_neg (by simp)]
  refine Reads.bind_fails (reads_nat_mod truncated 4 _)
    (Reads.bind_fails (reads_nat truncated hbyte) ?_)
  rw [if_pos hconfig]
  exact fails_throw _ _

/-- The last fields of a snapshot: the metadata, with what is derived from it, and the index. -/
def loadRest (db₀ db : VDB ι) (lsn : ℕ) : Reader Exn (ℕ × VDB ι) := do
  let metadata ← db₀.metadata.deserialize
  let metadata ← rebuilt db.deleted metadata
  let index ← (Index.make db₀.config).deserialize
  pure (lsn, { db with
    config := db₀.config, index, extToInt := liveMap db.intToExt db.deleted, metadata })

/-- Under the same dimension, in 32 bits, and metric, a load comes to the metadata. -/
theorem load_save (db₀ : VDB ι) (hdim : db.config.dim % 2 ^ 32 = db₀.config.dim)
    (hmetric : db.config.metric = db₀.config.metric) (hlsn : lsn < 2 ^ 64) (hfit : db.SizesFit)
    (hlive : db.liveCount < 2 ^ 64) (hdead : db.deletedCount < 2 ^ 64)
    (hdeleted : db.deleted.length < 2 ^ 64) (hvectors : db.vectors.length < 2 ^ 64)
    (rest : Bytes) : db₀.load (db.save lsn ++ rest) =
      loadRest db₀ db lsn (db.metadata.serialize ++ (db.index.serialize ++ rest)) := by
  have hbyte : db.config.metric.toByte < 256 ^ 1 := by cases db.config.metric <;> decide
  have hids : (many (getNumber 8) db.intToExt.length).Reads (db.intToExt.flatMap (putNat 8))
      db.intToExt := by
    have hread : (many (getNumber 8) db.intToExt.length).Reads (db.intToExt.flatMap (putNat 8))
        (db.intToExt.map id) := reads_many fun x hx => Column.reads_number (hfit.ids x hx)
    rwa [List.map_id] at hread
  have hmagic : ¬ ((0x56444253 : ℕ) ≠ 0x56444253) := not_not.2 rfl
  have hversion : ¬ ((2 : ℕ) ≠ 2) := not_not.2 rfl
  have hconfig : ¬ (db.config.dim % 256 ^ 4 ≠ db₀.config.dim ∨
      db.config.metric.toByte ≠ db₀.config.metric.toByte) :=
    fun h => h.elim (· hdim) (· (congrArg Metric.toByte hmetric))
  have hnum : ∀ (w n : ℕ), n < 256 ^ w → (getNumber w).Reads (putNat w n) n :=
    fun w n => reads_nat truncated
  have hmod : (getNumber 4).Reads (putNat 4 db.config.dim) (db.config.dim % 256 ^ 4) :=
    reads_nat_mod truncated 4 _
  unfold load save
  simp only [List.append_assoc]
  rw [(hnum 4 _ (by decide)).bind_apply, if_neg hmagic, (hnum 2 _ (by decide)).bind_apply,
    if_neg hversion, hmod.bind_apply, (hnum 1 _ hbyte).bind_apply, if_neg hconfig,
    (Column.reads_number hlsn).bind_apply, (Column.reads_number hfit.nextExtId).bind_apply,
    (Column.reads_number hlive).bind_apply,
    (Column.reads_number hdead).bind_apply, (Column.reads_number hfit.rows).bind_apply,
    hids.bind_apply, (Column.reads_number hdeleted).bind_apply,
    (reads_flags db.deleted).bind_apply, (Column.reads_number hvectors).bind_apply,
    (reads_vecs hfit.vectors).bind_apply, flags_toNat]
  rfl

/-- The file is read back field by field. -/
theorem reads_save {m m' : MetadataStore ι} {index : Index} (db₀ : VDB ι)
    (hconfig : db₀.config = db.config) (hdim : db.config.dim < 2 ^ 32) (hlsn : lsn < 2 ^ 64)
    (hfit : db.SizesFit) (hlive : db.liveCount < 2 ^ 64) (hdead : db.deletedCount < 2 ^ 64)
    (hdeleted : db.deleted.length < 2 ^ 64) (hvectors : db.vectors.length < 2 ^ 64)
    (hm : db₀.metadata.deserialize.Reads db.metadata.serialize m)
    (hm' : m.rebuildDerivedState db.deleted = .ok () m')
    (hindex : (Index.make db.config).deserialize.Reads db.index.serialize index) :
    db₀.load.Reads (db.save lsn) (lsn, { db with
      index, extToInt := liveMap db.intToExt db.deleted, metadata := m' }) := by
  have hrebuilt : (rebuilt db.deleted m).Reads [] m' := by
    unfold rebuilt
    rw [hm']
    exact reads_pure m'
  intro rest
  rw [load_save db₀ (by rw [hconfig, Nat.mod_eq_of_lt hdim]) (by rw [hconfig]) hlsn hfit hlive hdead
    hdeleted hvectors, loadRest, hm.bind_apply, ← List.nil_append (db.index.serialize ++ rest),
    hrebuilt.bind_apply, hconfig, hindex.bind_apply]
  rfl

/-! ### What a reload keeps -/

omit [ColumnIndex ι] in
theorem liveMap_concat (es : List Entry) (e : Entry) (deleted : List Bool) :
    liveMap ((es ++ [e]).map Entry.ext) deleted =
      if deleted.getD es.length false then liveMap (es.map Entry.ext) deleted
      else Function.update (liveMap (es.map Entry.ext) deleted) e.ext (some es.length) := by
  unfold liveMap
  rw [List.map_append, List.map_singleton, List.zipIdx_append, List.foldl_append, List.length_map,
    List.zipIdx_singleton, List.foldl_cons, List.foldl_nil, Nat.zero_add]

theorem lives_of_append {j : InternalId} (h : Lives es x j) : Lives (es ++ [e]) x j := by
  obtain ⟨e', hj, hl⟩ := h
  exact ⟨e', (List.getElem?_append_left (List.getElem?_eq_some_iff.1 hj).1).trans hj, hl⟩

theorem lives_last (hlive : e.isLive = true) : Lives (es ++ [e]) e.ext es.length :=
  ⟨e, List.getElem?_concat_length .., hlive, rfl⟩

/-- An id is mapped to a live row. -/
theorem lives_of_liveMap {deleted : List Bool}
    (hdeleted : ∀ i e, es[i]? = some e → deleted.getD i false = !e.isLive)
    (hx : liveMap (es.map Entry.ext) deleted x = some i) : Lives es x i := by
  induction es using List.reverseRecOn with
  | nil => cases hx
  | append_singleton es e ih =>
    have ih := ih fun j e' hj =>
      hdeleted j e' ((List.getElem?_append_left (List.getElem?_eq_some_iff.1 hj).1).trans hj)
    rw [liveMap_concat, hdeleted es.length e (List.getElem?_concat_length ..)] at hx
    cases hlive : e.isLive with
    | false =>
      rw [hlive, Bool.not_false, if_pos rfl] at hx
      exact lives_of_append (ih hx)
    | true =>
      rw [hlive, Bool.not_true, if_neg Bool.false_ne_true] at hx
      by_cases hxe : x = e.ext
      · subst hxe
        rw [Function.update_self] at hx
        cases hx
        exact lives_last hlive
      · rw [Function.update_of_ne hxe] at hx
        exact lives_of_append (ih hx)

/-- A live id is mapped. -/
theorem liveMap_isSome {deleted : List Bool}
    (hdeleted : ∀ i e, es[i]? = some e → deleted.getD i false = !e.isLive) (hx : Lives es x i) :
    (liveMap (es.map Entry.ext) deleted x).isSome := by
  induction es using List.reverseRecOn generalizing i with
  | nil => obtain ⟨e, ⟨⟩, -⟩ := hx
  | append_singleton es e ih =>
    have ih := fun i => @ih i fun j e' hj =>
      hdeleted j e' ((List.getElem?_append_left (List.getElem?_eq_some_iff.1 hj).1).trans hj)
    rw [liveMap_concat, hdeleted es.length e (List.getElem?_concat_length ..)]
    by_cases hxe : x = e.ext ∧ e.isLive = true
    · obtain ⟨rfl, hlive⟩ := hxe
      rw [hlive, Bool.not_true, if_neg Bool.false_ne_true, Function.update_self]
      rfl
    · have hold : Lives es x i := by
        obtain ⟨e', hi, hl, hext⟩ := hx
        rcases lt_trichotomy i es.length with hlt | rfl | hlt
        · rw [List.getElem?_append_left hlt] at hi
          exact ⟨e', hi, hl, hext⟩
        · rw [List.getElem?_concat_length] at hi
          cases hi
          exact absurd ⟨hext.symm, hl⟩ hxe
        · rw [List.getElem?_eq_none (by rw [List.length_append]; exact hlt)] at hi
          cases hi
      have hsome := ih i hold
      split_ifs with hdead
      · exact hsome
      · have hne : x ≠ e.ext := fun h => hxe ⟨h, by simpa using hdead⟩
        rwa [Function.update_of_ne hne]

/-- The map of a list in which an id lives at most once. -/
theorem liveMap_iff {deleted : List Bool}
    (hunique : ∀ x i j, Lives es x i → Lives es x j → i = j)
    (hdeleted : ∀ i e, es[i]? = some e → deleted.getD i false = !e.isLive) (x : ExternalId)
    (i : InternalId) : liveMap (es.map Entry.ext) deleted x = some i ↔ Lives es x i := by
  refine ⟨lives_of_liveMap hdeleted, fun hx => ?_⟩
  obtain ⟨j, hj⟩ := Option.isSome_iff_exists.1 (liveMap_isSome hdeleted hx)
  rw [hj, hunique x i j hx (lives_of_liveMap hdeleted hj)]

/-- The second database is the first one, as a caller can see it. -/
structure Restores (db db' : VDB ι) : Prop where
  nextExtId : db'.nextExtId = db.nextExtId
  liveCount : db'.liveCount = db.liveCount
  deletedCount : db'.deletedCount = db.deletedCount
  intToExt : db'.intToExt = db.intToExt
  deleted : db'.deleted = db.deleted
  vectors : db'.vectors = db.vectors
  extToInt : db'.extToInt = db.extToInt
  /-- But for the levels an HNSW index is going to draw. -/
  index : db'.index.undrawn = db.index.undrawn
  rows : db'.metadata.rows = db.metadata.rows
  row : ∀ i, db'.metadata.getRow i = db.metadata.getRow i
  /-- The values, the dictionaries and the terms. -/
  columns : List.Forall₂ Column.SameData db.metadata.columns db'.metadata.columns

omit [ColumnIndex ι] in
theorem search_restored {δ : Type} [Distance δ] (K : Kernels δ) (h : db.Restores db')
    (hconfig : db'.config = db.config) (query : Vec) (k : ℕ) :
    db'.search K query k = db.search K query k ∧
      db'.searchHits K query k = db.searchHits K query k := by
  have hsearch : ∀ n, db'.index.search K db.config.metric query n =
      db.index.search K db.config.metric query n := fun n => by
    rw [← Index.search_undrawn, h.index, Index.search_undrawn]
  have hsize : db'.index.size = db.index.size := by
    rw [← Index.size_undrawn, h.index, Index.size_undrawn]
  have hcollect : db'.collect K query k = db.collect K query k := by
    unfold collect
    rw [hconfig, h.deletedCount, h.deleted, hsize, hsearch]
  have hpayload : ∀ i, db'.metadata.payload.getD i [] = db.metadata.payload.getD i [] := fun i =>
    congrArg Record.payload (h.row i)
  have hext : (db'.extOf : InternalId × δ → ExternalId) = db.extOf := by
    unfold extOf
    rw [h.intToExt]
  have hhit : (db'.hitOf : InternalId × δ → Hit δ) = db.hitOf := by
    unfold hitOf
    rw [h.intToExt]
    simp only [hpayload]
  unfold search searchHits
  rw [hcollect, hext, hhit]
  exact ⟨rfl, rfl⟩

omit [ColumnIndex ι] in
theorem forall₂_sameData {s m' : MetadataStore ι} {schema : List AttrSpec} {rows rows' : List Row}
    (h : s.Holds J schema rows)
    (h' : m'.Holds (fun a c _ => ∃ c₀, s.columns[a]? = some c₀ ∧ c₀.SameData c) schema rows') :
    List.Forall₂ Column.SameData s.columns m'.columns := by
  refine List.forall₂_iff_get.2 ⟨h.columns.trans h'.columns.symm, fun a h1 h2 => ?_⟩
  obtain ⟨c₀, hc₀, hsame⟩ := h'.column a _ (List.getElem?_eq_getElem h2)
  rw [List.getElem?_eq_getElem h1] at hc₀
  cases hc₀
  exact hsame

omit [ColumnIndex ι] in
theorem getRow_of_same {s m' : MetadataStore ι}
    (h : List.Forall₂ Column.SameData s.columns m'.columns) (hpayload : m'.payload = s.payload)
    (i : InternalId) : m'.getRow i = s.getRow i := by
  have hmap : ∀ {cs cs' : List (Column ι)}, List.Forall₂ Column.SameData cs cs' →
      cs'.map (fun c => c.get i) = cs.map fun c => c.get i := by
    intro cs cs' h
    induction h with
    | nil => rfl
    | cons hc _ ih => rw [List.map_cons, List.map_cons, hc.get, ih]
  unfold MetadataStore.getRow
  rw [hmap h, hpayload]

/-- Rebuilding what has been read keeps the data of every column. -/
theorem sameData_rebuilt {s m' : MetadataStore ι} {schema : List AttrSpec} {rows : List Row}
    {deleted : List Bool} (hR : Column.Reloads J) (hok : ∀ a c rows, J a c rows → c.Ok rows)
    (h : s.Holds J schema rows)
    (hdel : ∀ i r, rows[i]? = some r → deleted.getD i false = !r.isLive)
    (he : s.reread.rebuildDerivedState deleted = .ok () m') :
    m'.Holds J schema rows ∧ List.Forall₂ Column.SameData s.columns m'.columns := by
  have hboth : s.Holds (fun a c rows => J a c rows ∧
      ∃ c₀, s.columns[a]? = some c₀ ∧ c₀.SameData c) schema rows :=
    h.mono fun a c hc hJ => ⟨hJ, c, hc, .refl c⟩
  have hstore : m'.Holds (fun a c rows => J a c rows ∧
      ∃ c₀, s.columns[a]? = some c₀ ∧ c₀.SameData c) schema rows :=
    hboth.rebuildReread (fun {a c rows} spec _ ⟨hc, c₀, hc₀, hsame⟩ => by
    rw [(hok a c rows hc).reread ⟨rfl, rfl, rfl⟩]
    exact ⟨hR.restored spec hc, c₀, hc₀, hsame.trans
      ((Column.sameData_restored c _).trans (Column.sameData_clearDerived _))⟩)
    (fun ⟨hc, c₀, hc₀, hsame⟩ hi hr =>
      ⟨hR.rebuildRow hc hi hr, c₀, hc₀, hsame.trans (Column.sameData_rebuildRow hr)⟩) hdel he
  exact ⟨hstore.mono fun _ _ _ hc => hc.1, forall₂_sameData h (hstore.mono fun _ _ _ hc => hc.2)⟩

/-- **A snapshot is read back**, and holds the same rows. -/
theorem Holds.load_save (hR : Column.Reloads J) (hok : ∀ a c rows, J a c rows → c.Ok rows)
    (h : db.Holds J config es) (hnew : VDB.new config = .ok db₀) (hdim : config.dim < 2 ^ 32)
    (hlsn : lsn < 2 ^ 64) (hfit : db.SizesFit) (hrebuilds : db.Rebuilds) :
    ∃ db', db₀.load.Reads (db.save lsn) (lsn, db') ∧ db.Restores db' ∧ db'.Holds J config es := by
  have hlen : db.intToExt.length = es.length := by rw [h.ids, List.length_map]
  have hrows : es.length < 2 ^ 64 := hlen ▸ hfit.rows
  have hdeleted : ∀ (i : ℕ) (e : Entry), es[i]? = some e → db.deleted.getD i false = !e.isLive := by
    intro i e hi
    rw [h.deleted]
    exact MetadataStore.getD_of_getElem (by rw [List.getElem?_map, hi]; rfl) false
  have hdel : ∀ i r, (es.map Entry.row)[i]? = some r → db.deleted.getD i false = !r.isLive := by
    intro i r hi
    obtain ⟨e, he, rfl⟩ := Option.map_eq_some_iff.1 ((List.getElem?_map ..).symm.trans hi)
    exact hdeleted i e he
  unfold VDB.new at hnew
  cases ht : (MetadataStore.new config.schema : Except Exn (MetadataStore ι)) with
  | error e =>
    rw [ht] at hnew
    cases hnew
  | ok t =>
    rw [ht] at hnew
    cases hnew
    have hm := h.metadata.rereads (fun a c rows hc => (hok a c rows hc).sized) hfit.metadata
      (fun c hc => by
        obtain ⟨a, ha⟩ := List.getElem?_of_mem hc
        exact (hok _ _ _ (h.metadata.column a c ha)).dict.small.trans_lt (by decide)) ht
    have hindex := h.sound.reads hfit.index h.kind
    rw [← h.configured] at hindex
    cases hm' : db.metadata.reread.rebuildDerivedState db.deleted with
    | error e m' =>
      unfold Rebuilds at hrebuilds
      rw [hm'] at hrebuilds
      exact hrebuilds.elim
    | ok _ m' =>
      have hread := reads_save { config, index := Index.make config, metadata := t }
        h.configured.symm (h.configured ▸ hdim) hlsn hfit
        (h.liveCount ▸ List.countP_le_length.trans_lt hrows)
        (h.deletedCount ▸ List.countP_le_length.trans_lt hrows)
        (by rwa [h.deleted, List.length_map]) (by rwa [h.vectors, List.length_map]) hm hm' hindex
      obtain ⟨hstore, hsame⟩ := sameData_rebuilt hR hok h.metadata hdel hm'
      have hmap : liveMap db.intToExt db.deleted = db.extToInt := by
        funext x
        refine Option.ext fun i => ?_
        rw [h.ids, liveMap_iff (fun x i j hi hj => h.unique hi hj) hdeleted, h.map]
      refine ⟨_, hread, ?_, ?_⟩
      · exact
        { nextExtId := rfl, liveCount := rfl, deletedCount := rfl, intToExt := rfl, deleted := rfl
          vectors := rfl, extToInt := hmap, index := Index.undrawn_undrawn _
          rows := hstore.rowCount.trans h.metadata.rowCount.symm
          row := getRow_of_same hsame (hstore.payload.trans h.metadata.payload.symm)
          columns := hsame }
      · exact
        { configured := h.configured, kind := (Index.kind_undrawn _).trans h.kind
          sound := h.sound.undrawn, size := (Index.size_undrawn _).trans h.size
          ids := h.ids, deleted := h.deleted, vectors := h.vectors, metadata := hstore
          map := fun x i => by rw [hmap, h.map], liveCount := h.liveCount
          deletedCount := h.deletedCount }

end VDB

/-! ### Runs with reloads -/

/-- An action of a call, or the database is saved and loaded by a fresh one. -/
inductive Step where
  | act (a : Action)
  | reload (lsn : ℕ)
  deriving DecidableEq

namespace System

variable {ι δ : Type} [ColumnIndex ι] [Distance δ] (K : Kernels δ) (s : System ι δ)

def step : Step → System ι δ
  | .act a => s.act K a
  | .reload lsn => { s with db := s.db.reload lsn }

/-- What is asked of a step: orderly calls with values that have an exact encoding, compactions
that find no pending node, and reloads between calls. -/
def Proper : Step → Prop
  | .act a => s.Orderly K a ∧ s.Exact K a ∧ s.Quiet a
  | .reload lsn => (∀ x, s.calls x = none) ∧ lsn < 2 ^ 64 ∧ s.db.SizesFit ∧ s.db.Rebuilds

variable {K s} {E : Prop} {J : ℕ → Column ι → List ColRow → Prop} {config : VDBConfig}
  {es : List Entry} {a : Step} {lsn : ℕ}

omit [Distance δ] in
/-- A reload changes no entry. -/
theorem Inv.reload (hR : Column.Reloads J) (hok : ∀ a c rows, J a c rows → c.Ok rows)
    (h : s.Inv J config es) (hdim : config.dim < 2 ^ 32) (hcalls : ∀ x, s.calls x = none)
    (hlsn : lsn < 2 ^ 64) (hfit : s.db.SizesFit) (hrebuilds : s.db.Rebuilds) :
    ({ s with db := s.db.reload lsn } : System ι δ).Inv J config es := by
  obtain ⟨m, hm⟩ := MetadataStore.new_ok (ι := ι) h.holds.metadata.checked
  have hnew : VDB.new config = .ok { config, index := Index.make config, metadata := m } := by
    unfold VDB.new
    rw [hm]
  obtain ⟨db', hread, hrestores, hholds⟩ :=
    h.holds.load_save hR hok hnew hdim hlsn hfit hrebuilds
  have hload := hread []
  rw [List.append_nil] at hload
  have hreload : s.db.reload lsn = db' := by
    unfold VDB.reload
    rw [h.holds.configured, hnew]
    dsimp only
    rw [hload]
  rw [hreload]
  exact
  { holds := hholds
    calls := fun x call hx => by
      rw [hcalls x] at hx
      cases hx
    ids := fun x hx => hrestores.nextExtId ▸ h.ids x hx
    handedOut := fun x hx => hrestores.nextExtId ▸ h.handedOut x hx }

/-- **One step** keeps the invariant. -/
theorem Inv.proper (hJ : Column.Invariant True J anyWrite) (hR : Column.Reloads J)
    (h : (∃ es, s.Inv J config es) ∧ s.Bools) (hdim : config.dim < 2 ^ 32) (hp : s.Proper K a) :
    (∃ es, (s.step K a).Inv J config es) ∧ (s.step K a).Bools := by
  obtain ⟨⟨es, hinv⟩, hb⟩ := h
  cases a with
  | act a =>
    obtain ⟨ho, he, hq⟩ := hp
    exact ⟨hinv.act hJ ho hq (fun _ => hb) fun _ => he, hb.act he.bools⟩
  | reload lsn =>
    obtain ⟨hcalls, hlsn, hfit, hrebuilds⟩ := hp
    exact ⟨⟨es, hinv.reload hR (fun _ _ _ => hJ.ok trivial) hdim hcalls hlsn hfit hrebuilds⟩, hb⟩

/-- **A snapshot restores the database**, in every state that calls and reloads reach. -/
theorem load_save_run {db₀ : VDB ι} (hnew : VDB.new config = .ok db₀) (hdim : config.dim < 2 ^ 32)
    (steps : List Step) (h : Run.Along (step K) (fun s a => s.Proper K a) { db := db₀ } steps)
    (hlsn : lsn < 2 ^ 64) (hfit : (steps.foldl (step K) { db := db₀ }).db.SizesFit)
    (hrebuilds : (steps.foldl (step K) { db := db₀ }).db.Rebuilds) :
    let db := (steps.foldl (step K) { db := db₀ }).db
    ∃ db', db₀.load.Reads (db.save lsn) (lsn, db') ∧ db.Restores db' ∧
      ∀ query k, db'.search K query k = db.search K query k ∧
        db'.searchHits K query k = db.searchHits K query k := by
  have hJ := Column.invariant_ok (ι := ι)
  have hR := Column.reloads_ok (ι := ι)
  obtain ⟨⟨es, hinv⟩, -⟩ := Run.Along.invariant
    (I := fun s : System ι δ => (∃ es, s.Inv (fun _ c rows => c.Ok rows) config es) ∧ s.Bools)
    (fun s a hs hp => Inv.proper hJ hR hs hdim hp)
    ⟨⟨[], inv_new hnew fun _ spec _ => Column.ok_new spec⟩, by rintro x call ⟨⟩⟩ h
  obtain ⟨db', hread, hrestores, hholds⟩ :=
    hinv.holds.load_save hR (fun _ _ _ hc => hc) hnew hdim hlsn hfit hrebuilds
  exact ⟨db', hread, hrestores, VDB.search_restored K hrestores
    (hholds.configured.trans hinv.holds.configured.symm)⟩

/-- A row is inserted, and the database reloaded. -/
def reloaded : List Step :=
  [.act (.insert [1] {}), .act (.allocate 0), .act (.link 0), .act (.publish 0), .reload 3,
    .act (.remove 0)]

theorem load_save_reloaded :
    let db := (reloaded.foldl (step (ι := PairIndex) onePlace) small).db
    ∃ db', small.db.load.Reads (db.save 7) (7, db') ∧ db.Restores db' ∧
      ∀ query k, db'.search onePlace query k = db.search onePlace query k ∧
        db'.searchHits onePlace query k = db.searchHits onePlace query k := by
  refine load_save_run new_small (by decide) reloaded
    ⟨⟨by decide +kernel, by decide +kernel, nofun⟩, ⟨by decide +kernel, by decide +kernel, nofun⟩,
      ⟨by decide +kernel, by decide +kernel, nofun⟩, ⟨by decide +kernel, by decide +kernel, nofun⟩,
      ⟨fun x => ?_, by decide, by decide +kernel, by decide +kernel⟩,
      ⟨by decide +kernel, by decide +kernel, nofun⟩, trivial⟩
    (by decide) (by decide +kernel) (by decide +kernel)
  by_cases hx : x = 0
  · subst hx
    rfl
  · -- only the call on id 0 has come and gone
    exact (Function.update_of_ne hx ..).trans ((Function.update_of_ne hx ..).trans
      ((Function.update_of_ne hx ..).trans (Function.update_of_ne hx ..)))

/-- Vectors of so many dimensions. -/
def wideConfig : VDBConfig := { kind := .brute, dim := 2 ^ 32 }

/-- The dimension is written as a 32-bit number. -/
theorem wide_vectors_mismatch :
    ∃ db : VDB PairIndex, VDB.new wideConfig = .ok db ∧
      db.load (db.save 0) = .error (.runtimeError (ascii "snapshot config mismatch")) :=
  ⟨_, rfl, rfl⟩

end System

end Database

end Vdb
