import Vdb.Database.Sequential
import Vdb.Metadata.Keys

/-!
# The rows of a database

What any sequence of calls makes of the rows.  Nothing is asked of the calls but that each returns,
or throws with nothing changed: the values may be anything, and the external ids may have wrapped,
so that two live rows have the same one.

* `VDB.Follows.step` : one call keeps what is known of the rows.
* `VDB.Follows.settles` : where no column index throws, a call that fails no `assert` is such a
  call.
-/

namespace Vdb

namespace Database

open Metadata

namespace VDB

variable {ι δ : Type} {J : ℕ → Column ι → List ColRow → Prop} {config : VDBConfig}
  {db db' : VDB ι} {es : List Entry} {e : Entry} {ext x : ExternalId} {i iid old : InternalId}
  {vec : Vec} {rec : Record}

/-- The rows of the database are those of the entries, and a mapped id is that of a live row. -/
structure Follows (J : ℕ → Column ι → List ColRow → Prop) (config : VDBConfig) (db : VDB ι)
    (es : List Entry) : Prop where
  configured : db.config = config
  kind : db.index.kind = config.kind
  sound : db.index.Sound
  size : db.index.size = es.length
  ids : db.intToExt = es.map Entry.ext
  deleted : db.deleted = es.map fun e => !e.isLive
  vectors : db.vectors = es.map Entry.vec
  metadata : db.metadata.Holds J config.schema (es.map Entry.row)
  map : ∀ x i, db.extToInt x = some i → Lives es x i

/-- A pending node is pushed. -/
theorem Follows.push [Distance δ] {K : Kernels δ} (h : db.Follows J config es) {index : Index}
    {metadata : MetadataStore ι} {row : Row}
    (ha : db.index.allocate K db.config.metric vec = .ok iid index)
    (hm : metadata.Holds J config.schema (es.map Entry.row ++ [row])) (hrow : row.isLive = false)
    (n : ExternalId) (k : ℕ) :
    { db with
      index, intToExt := db.intToExt ++ [ext], deleted := db.deleted ++ [true]
      vectors := db.vectors ++ [vec], deletedCount := k
      metadata, nextExtId := n }.Follows J config (es ++ [Entry.mk ext vec row]) := by
  obtain ⟨-, hsize, hkind⟩ := Index.allocate_ok ha
  have hdead : (Entry.mk ext vec row).isLive = false := hrow
  exact
  { configured := h.configured
    kind := hkind.trans h.kind
    sound := (h.sound.allocate ha).1
    size := by rw [List.length_append, ← h.size]; exact hsize
    ids := by rw [List.map_append, ← h.ids]; rfl
    deleted := by rw [List.map_append, ← h.deleted, List.map_singleton, hdead]; rfl
    vectors := by rw [List.map_append, ← h.vectors]; rfl
    metadata := by rw [List.map_append]; exact hm
    map := fun x i hx => (lives_append x i hdead).2 (h.map x i hx) }

/-- Nothing is said about the counters, nor about how many nodes are linked. -/
theorem Follows.frame (h : db.Follows J config es) (hconfig : db'.config = db.config)
    (hindex : db'.index.Sound ∧ db'.index.size = db.index.size ∧ db'.index.kind = db.index.kind)
    (hids : db'.intToExt = db.intToExt) (hdeleted : db'.deleted = db.deleted)
    (hvectors : db'.vectors = db.vectors) (hm : db'.metadata = db.metadata)
    (hmap : db'.extToInt = db.extToInt) : db'.Follows J config es where
  configured := hconfig.trans h.configured
  kind := hindex.2.2.trans h.kind
  sound := hindex.1
  size := hindex.2.1.trans h.size
  ids := hids.trans h.ids
  deleted := hdeleted.trans h.deleted
  vectors := hvectors.trans h.vectors
  metadata := hm.symm ▸ h.metadata
  map := hmap.symm ▸ h.map

/-- A row changes its status. -/
theorem Follows.withStatus (h : db.Follows J config es) (hi : es[i]? = some e)
    (status : RowStatus) (map : ExternalId → Option InternalId) {m : MetadataStore ι} (n k : ℕ)
    (hm : m.Holds J config.schema
      ((es.map Entry.row).modify i fun r => { r with status }))
    (hmap : ∀ x j, map x = some j → Lives (es.modify i (Entry.withStatus status)) x j) :
    { db with
      deleted := db.deleted.set i (!decide (status = RowStatus.live)), metadata := m,
      extToInt := map
      liveCount := n, deletedCount := k }.Follows J config
        (es.modify i (Entry.withStatus status)) where
  configured := h.configured
  kind := h.kind
  sound := h.sound
  size := h.size.trans (length_modify _).symm
  ids := h.ids.trans (Eq.symm (map_modify_of_eq Entry.ext fun _ => rfl))
  deleted := by
    rw [map_modify (fun e => !e.isLive) _ hi, ← h.deleted]
    congr 1
  vectors := h.vectors.trans (Eq.symm (map_modify_of_eq Entry.vec fun _ => rfl))
  metadata := by
    rw [modify_row (g := fun r => { r with status }) fun _ => rfl]
    exact hm
  map := hmap

/-- A database without rows. -/
theorem follows_start [ColumnIndex ι]
    (hJ : ∀ (a : ℕ) (spec : AttrSpec), config.schema[a]? = some spec → J a (Column.new spec) [])
    (hnew : VDB.new config = .ok db) : db.Follows J config [] := by
  unfold VDB.new at hnew
  cases hm : (MetadataStore.new config.schema : Except Exn (MetadataStore ι)) with
  | error e =>
    rw [hm] at hnew
    cases hnew
  | ok m =>
    rw [hm] at hnew
    cases hnew
    obtain ⟨hsize, hkind⟩ := Index.size_make config
    exact
    { configured := rfl, kind := hkind, sound := Index.sound_make config, size := hsize
      ids := rfl, deleted := rfl, vectors := rfl
      metadata := MetadataStore.holds_new hm hJ
      map := by rintro x i ⟨⟩ }

section Calls

variable [ColumnIndex ι] [Distance δ] {K : Kernels δ}

omit [ColumnIndex ι] in
/-- Allocating throws and changes nothing, or fails an `assert`, or returns. -/
theorem allocateNode_cases (K : Kernels δ) (db : VDB ι) (ext : ExternalId) (vec : Vec) :
    (∃ e, db.allocateNode K ext vec = .error e db ∧
        ¬ (db.index.allocate K db.config.metric vec).Returns) ∨
      (∃ s, db.allocateNode K ext vec = .error .assertionFailed s) ∨
      ∃ iid db', db.allocateNode K ext vec = .ok iid db' := by
  cases ha : db.allocateNode K ext vec with
  | ok iid db' => exact .inr (.inr ⟨iid, db', rfl⟩)
  | error e s =>
    unfold allocateNode at ha
    cases hindex : db.index.allocate K db.config.metric vec with
    | error e' index =>
      rw [hindex] at ha
      obtain rfl := Index.allocate_error hindex
      cases ha
      exact .inl ⟨e, rfl, id⟩
    | ok iid index =>
      rw [hindex] at ha
      dsimp only at ha
      split_ifs at ha
      cases ha
      exact .inr (.inl ⟨_, rfl⟩)

omit [ColumnIndex ι] in
theorem appendRow_returns (hv : db.validate rec = .ok ()) :
    ∃ m, db.metadata.appendRow rec = .ok () m := by
  unfold VDB.validate at hv
  unfold MetadataStore.appendRow
  rw [hv]
  exact ⟨_, rfl⟩

omit [ColumnIndex ι] in
theorem Follows.link (h : db.Follows J config es) (hi : iid < es.length) :
    (db.link K iid).Follows J config es := by
  have hlink : (db.index.link K db.config.metric iid).size = db.index.size ∧
      (db.index.link K db.config.metric iid).kind = db.index.kind := Index.size_link iid
  exact h.frame rfl ⟨h.sound.link (h.size.symm ▸ hi), hlink⟩ rfl rfl rfl rfl rfl

omit [Distance δ] in
/-- A pending row is published under its id. -/
theorem Follows.insertPublish (hJ : Column.Invariant False J anyWrite) (h : db.Follows J config es)
    (hi : es[iid]? = some e) (hlive : e.isLive = false) (hext : e.ext = ext)
    (he : db.insertPublish ext iid = .ok () db') :
    db'.Follows J config (es.modify iid (Entry.withStatus .live)) := by
  obtain ⟨_, db₁, hg, hend⟩ := Outcome.andThen_ok he
  cases hend
  obtain ⟨m, hm, rfl⟩ := goLive_ok hg
  have hstore := h.metadata.markLive hJ (getElem?_row hi) hlive hm
  refine h.withStatus hi .live (Function.update db.extToInt ext (some iid)) _ _ hstore
    fun x j hx => ?_
  rw [lives_modify hi rfl]
  by_cases hxe : x = ext
  · subst hxe
    rw [Function.update_self] at hx
    cases hx
    rw [if_pos rfl]
    exact ⟨rfl, hext⟩
  · rw [Function.update_of_ne hxe] at hx
    have hlives := h.map x j hx
    obtain ⟨e', hj, hl, -⟩ := hlives
    rw [if_neg (ne_of_live hi hlive hj hl).symm]
    exact h.map x j hx

omit [Distance δ] in
/-- A live row is dropped, and its id mapped as `map` says. -/
theorem Follows.goDead (hJ : Column.Invariant False J anyWrite) (h : db.Follows J config es)
    (hi : es[i]? = some e) (hlive : e.isLive = true) {m : MetadataStore ι}
    (hm : db.metadata.markDead i = .ok () m) (map : ExternalId → Option InternalId)
    (hmap : ∀ x j, map x = some j → j ≠ i ∧ Lives es x j) (n k : ℕ) :
    { db with
      deleted := db.deleted.set i true, metadata := m, extToInt := map
      liveCount := n, deletedCount := k }.Follows J config
        (es.modify i (Entry.withStatus .dead)) := by
  have hstore := h.metadata.markDead hJ (getElem?_row hi) hlive hm
  refine h.withStatus hi .dead map _ _ hstore fun x j hx => ?_
  obtain ⟨hne, hlives⟩ := hmap x j hx
  rw [lives_modify hi rfl, if_neg hne]
  exact hlives

/-- **An insert** that returns. -/
theorem Follows.insertReserved (hJ : Column.Invariant False J anyWrite) (h : db.Follows J config es)
    (he : db.insertReserved K ext vec rec = .ok () db') : ∃ es', db'.Follows J config es' := by
  unfold VDB.insertReserved VDB.insertAllocate at he
  cases hv : db.validate rec with
  | error e =>
    rw [hv] at he
    cases he
  | ok _ =>
    rw [hv] at he
    obtain ⟨iid, db₁, hallocate, hpublish⟩ := Outcome.andThen_ok he
    obtain ⟨iid', db₂, ha, happend⟩ := Outcome.andThen_ok hallocate
    obtain ⟨index, hindex, rfl, rfl⟩ := allocateNode_ok ha
    obtain ⟨_, db₃, hstored, hend⟩ := Outcome.andThen_ok happend
    obtain ⟨m, hm, rfl⟩ := Outcome.mapState_ok hstored
    cases hend
    have hstore := h.metadata.appendRow hJ False.elim hm False.elim
    set row := Row.ofRecord config.schema.length rec with hrow
    have hlen : db.intToExt.length = es.length := by rw [h.ids, List.length_map]
    have hpushed : ((VDB.withMetadata { db with
        index, intToExt := db.intToExt ++ [ext], deleted := db.deleted ++ [true]
        vectors := db.vectors ++ [vec], deletedCount := db.deletedCount + 1 } m).keepAhead
        ext).Follows J config (es ++ [⟨ext, vec, row⟩]) := by
      unfold VDB.keepAhead
      split_ifs
      · exact h.push hindex hstore rfl _ _
      · exact h.push hindex hstore rfl _ _
    have hlast : (es ++ [Entry.mk ext vec row])[db.intToExt.length]? = some ⟨ext, vec, row⟩ :=
      hlen ▸ List.getElem?_concat_length ..
    exact ⟨_, (hpushed.link (K := K) (List.getElem?_eq_some_iff.1 hlast).1).insertPublish hJ
      hlast rfl
      rfl hpublish⟩

theorem Follows.insert (hJ : Column.Invariant False J anyWrite) (h : db.Follows J config es)
    (he : db.insert K vec rec = .ok ext db') : ∃ es', db'.Follows J config es' := by
  unfold VDB.insert at he
  cases hv : db.validate rec with
  | error e =>
    rw [hv] at he
    cases he
  | ok _ =>
    rw [hv] at he
    have hnext : db.reserveId.2.Follows J config es :=
      h.frame rfl ⟨h.sound, rfl, rfl⟩ rfl rfl rfl rfl rfl
    obtain ⟨_, db₁, hinsert, hend⟩ := Outcome.andThen_ok he
    cases hend
    exact hnext.insertReserved hJ hinsert

/-- **A removal.** -/
theorem Follows.remove (hJ : Column.Invariant False J anyWrite) (h : db.Follows J config es)
    {b : Bool}
    (he : db.remove ext = .ok b db') : ∃ es', db'.Follows J config es' := by
  unfold VDB.remove at he
  cases hx : db.extToInt ext with
  | none =>
    rw [hx] at he
    cases he
    exact ⟨es, h⟩
  | some iid =>
    rw [hx] at he
    obtain ⟨_, db₁, hg, hend⟩ := Outcome.andThen_ok he
    cases hend
    obtain ⟨m, hm, rfl⟩ := goDead_ok hg
    obtain ⟨e, hi, hlive, hext⟩ := h.map ext iid hx
    refine ⟨_, h.goDead hJ hi hlive hm (Function.update db.extToInt ext none)
      (fun x j hx => ?_) (decrement db.liveCount) (db.deletedCount + 1)⟩
    by_cases hxe : x = ext
    · subst hxe
      rw [Function.update_self] at hx
      cases hx
    · rw [Function.update_of_ne hxe] at hx
      have hlives := h.map x j hx
      refine ⟨?_, hlives⟩
      rintro rfl
      obtain ⟨e', hj, -, hext'⟩ := hlives
      rw [hi] at hj
      cases hj
      exact hxe (hext'.symm.trans hext)

omit [Distance δ] in
/-- A replacement is published, and the row it replaces dropped. -/
theorem Follows.updatePublish (hJ : Column.Invariant False J anyWrite) (h : db.Follows J config es)
    (hi : es[iid]? = some e) (hlive : e.isLive = false) (hext : e.ext = ext) {o : Entry}
    (hold : es[old]? = some o) (holive : o.isLive = true) (hoext : o.ext = ext)
    (he : db.updatePublish ext old iid = .ok () db') : ∃ es', db'.Follows J config es' := by
  obtain ⟨_, db₁, hg, hrest⟩ := Outcome.andThen_ok he
  obtain ⟨m, hm, rfl⟩ := goLive_ok hg
  obtain ⟨_, db₂, hg', hend⟩ := Outcome.andThen_ok hrest
  cases hend
  obtain ⟨m', hm', rfl⟩ := goDead_ok hg'
  have hstore := h.metadata.markLive hJ (getElem?_row hi) hlive hm
  have hne : iid ≠ old := ne_of_live hi hlive hold holive
  have hlives : ∀ x j, Lives es x j → j ≠ iid := fun x j ⟨e', hj, hl, _⟩ =>
    (ne_of_live hi hlive hj hl).symm
  have h₁ := h.withStatus hi .live db.extToInt db.liveCount (decrement db.deletedCount + 1) hstore
    fun x j hx => by
      rw [lives_modify hi rfl, if_neg (hlives x j (h.map x j hx))]
      exact h.map x j hx
  have hold₁ : (es.modify iid (Entry.withStatus .live))[old]? = some o :=
    (getElem?_modify_ne hne).trans hold
  refine ⟨_, h₁.goDead hJ hold₁ holive hm' (Function.update db.extToInt ext (some iid))
    (fun x j hx => ?_) db.liveCount (decrement db.deletedCount + 1)⟩
  rw [lives_modify hi rfl]
  by_cases hxe : x = ext
  · subst hxe
    rw [Function.update_self] at hx
    cases hx
    rw [if_pos rfl]
    exact ⟨hne, rfl, hext⟩
  · rw [Function.update_of_ne hxe] at hx
    have hx' := h.map x j hx
    rw [if_neg (hlives x j hx')]
    refine ⟨?_, hx'⟩
    rintro rfl
    obtain ⟨e', hj, -, hext'⟩ := hx'
    rw [hold] at hj
    cases hj
    exact hxe (hext'.symm.trans hoext)

/-- **An update** that returns. -/
theorem Follows.update (hJ : Column.Invariant False J anyWrite) (h : db.Follows J config es)
    {rec : Option Record} {b : Bool} (he : db.update K ext vec rec = .ok b db') :
    ∃ es', db'.Follows J config es' := by
  unfold VDB.update VDB.updateAllocate at he
  cases hv : db.validateUpdate rec with
  | error e =>
    rw [hv] at he
    cases he
  | ok _ =>
    rw [hv] at he
    cases hx : db.extToInt ext with
    | none =>
      rw [hx] at he
      cases he
      exact ⟨es, h⟩
    | some old =>
      rw [hx] at he
      obtain ⟨o, hold, holive, hoext⟩ := h.map ext old hx
      obtain ⟨nodes, db₁, hallocate, hpublish⟩ := Outcome.andThen_ok he
      obtain ⟨iid, db₂, ha, happend⟩ := Outcome.andThen_ok hallocate
      obtain ⟨index, hindex, rfl, rfl⟩ := allocateNode_ok ha
      obtain ⟨_, db₃, hstored, hend⟩ := Outcome.andThen_ok happend
      obtain ⟨m, hm, rfl⟩ := Outcome.mapState_ok hstored
      cases hend
      obtain ⟨_, db₄, hpublish, hend⟩ := Outcome.andThen_ok hpublish
      cases hend
      -- the new row is pending when it is pushed, and takes the place of the old one after that
      set row := replacement config.schema.length o rec with hrow
      have hdead : row.isLive = false := isLive_replacement ..
      have hstore : m.Holds J config.schema (es.map Entry.row ++ [row]) := by
        cases rec with
        | some rec => exact h.metadata.appendRow hJ False.elim hm False.elim
        | none =>
          cases hm
          exact h.metadata.appendRowCopy hJ (getElem?_row hold)
      have hlen : db.intToExt.length = es.length := by rw [h.ids, List.length_map]
      have hpushed : (VDB.withMetadata { db with
          index, intToExt := db.intToExt ++ [ext], deleted := db.deleted ++ [true]
          vectors := db.vectors ++ [vec], deletedCount := db.deletedCount + 1 } m).Follows J config
            (es ++ [⟨ext, vec, row⟩]) := h.push hindex hstore hdead _ _
      have hlast : (es ++ [Entry.mk ext vec row])[db.intToExt.length]? = some ⟨ext, vec, row⟩ :=
        hlen ▸ List.getElem?_concat_length ..
      have hold' : (es ++ [Entry.mk ext vec row])[old]? = some o :=
        (List.getElem?_append_left (List.getElem?_eq_some_iff.1 hold).1).trans hold
      exact (hpushed.link (K := K) (List.getElem?_eq_some_iff.1 hlast).1).updatePublish hJ
        hlast hdead
        rfl hold' holive hoext hpublish

omit [Distance δ] in
theorem Follows.setMetadata (hJ : Column.Invariant False J anyWrite) (h : db.Follows J config es)
    {b : Bool} (he : db.setMetadata ext rec = .ok b db') : ∃ es', db'.Follows J config es' := by
  unfold VDB.setMetadata at he
  cases hv : db.validate rec with
  | error e =>
    rw [hv] at he
    cases he
  | ok _ =>
    rw [hv] at he
    cases hext : db.extToInt ext with
    | none =>
      rw [hext] at he
      cases he
      exact ⟨es, h⟩
    | some iid =>
      rw [hext] at he
      obtain ⟨_, db₁, hstored, hend⟩ := Outcome.andThen_ok he
      cases hend
      obtain ⟨m, hm, rfl⟩ := Outcome.mapState_ok hstored
      obtain ⟨e, hi, hlive, -⟩ := h.map ext iid hext
      have hstore := h.metadata.setRow hJ (getElem?_row hi) hlive False.elim (fun _ _ => trivial) hm
        False.elim
      have hsame : ∀ e, (Entry.withRecord config.schema.length rec e).isLive = e.isLive :=
        fun _ => rfl
      exact ⟨es.modify iid (Entry.withRecord config.schema.length rec),
        { configured := h.configured
          kind := h.kind
          sound := h.sound
          size := h.size.trans (length_modify _).symm
          ids := h.ids.trans (Eq.symm (map_modify_of_eq Entry.ext fun _ => rfl))
          deleted := h.deleted.trans (Eq.symm (map_modify_of_eq _ fun _ => rfl))
          vectors := h.vectors.trans (Eq.symm (map_modify_of_eq Entry.vec fun _ => rfl))
          metadata := by
            rw [modify_row (g := fun r => { r with
              attrs := Row.attrsOf config.schema.length rec, payload := rec.payload }) fun _ => rfl]
            exact hstore
          map := fun x j hx => by
            rw [lives_modify hi rfl]
            split_ifs with hji
            · subst hji
              obtain ⟨e', hj, hl, hx'⟩ := h.map x j hx
              rw [hi] at hj
              cases hj
              exact ⟨hl, hx'⟩
            · exact h.map x j hx }⟩

omit [ColumnIndex ι] in
/-- What appending the live rows one by one leaves, if no `assert` fails and the index has room. -/
theorem appendAll_returns {rows : List (ExternalId × Vec)}
    (hsize : db.index.size = db.intToExt.length) (hsound : db.index.Sound)
    (hivf : db.index.kind = .ivf → rows = [])
    (hroom : db.index.kind = .hnsw → db.index.size + rows.length ≤ 2 ^ 20)
    (hmap : ∀ x i, db.extToInt x = some i → db.intToExt[i]? = some x)
    (hs : ¬ (appendAll K rows db).Aborted) :
    ∃ index map, appendAll K rows db = .ok () { db with
        index, extToInt := map, intToExt := db.intToExt ++ rows.map Prod.fst
        deleted := db.deleted ++ rows.map fun _ => false
        vectors := db.vectors ++ rows.map Prod.snd } ∧
      index.size = db.intToExt.length + rows.length ∧ index.kind = db.index.kind ∧ index.Sound ∧
      ∀ x i, map x = some i → (db.intToExt ++ rows.map Prod.fst)[i]? = some x := by
  induction rows generalizing db with
  | nil =>
    exact ⟨db.index, db.extToInt, by simp [appendAll], hsize, rfl, hsound, by simpa using hmap⟩
  | cons r rows ih =>
    obtain ⟨ext, vec⟩ := r
    rw [appendAll] at hs ⊢
    unfold VDB.append at hs ⊢
    obtain ⟨id, index, hadd⟩ := Index.add_returns K db.config.metric vec hsound
      (fun hk => by cases hivf hk) fun hk => by
        have := hroom hk
        rw [List.length_cons] at this
        omega
    rw [hadd] at hs ⊢
    dsimp only at hs ⊢
    obtain ⟨hlt, hsize₁, hkind₁, hsound₁⟩ := Index.add_ok hadd
    -- a row with another number fails the `assert`
    by_cases hid : id = db.intToExt.length
    · rw [if_neg (not_not.2 hid)] at hs ⊢
      have hiid : (((db.withIndex index).pushNode ext vec false).intToExt.length - 1) % 2 ^ 32 =
          db.intToExt.length := by
        have hlen : ((db.withIndex index).pushNode ext vec false).intToExt.length - 1 =
            db.intToExt.length := by simp [VDB.pushNode, VDB.withIndex]
        rw [hlen]
        exact Nat.mod_eq_of_lt (hid ▸ hlt)
      dsimp only [Outcome.andThen] at hs ⊢
      rw [hiid] at hs ⊢
      set db₂ : VDB ι := ((db.withIndex index).pushNode ext vec false).mapId ext
        (some db.intToExt.length) with hdb₂
      have hids : db₂.intToExt = db.intToExt ++ [ext] := rfl
      obtain ⟨index', map', he, h1, h2, h3, h4⟩ := @ih db₂
        (by rw [hids, List.length_append]; exact hsize₁.trans (congrArg (· + 1) hsize))
        (hsound₁ hsound (hid.trans hsize.symm))
        (fun hk => by cases hivf (hkind₁ ▸ hk)) (fun hk => by
          have := hroom (hkind₁ ▸ hk)
          rw [List.length_cons] at this
          change index.size + rows.length ≤ 2 ^ 20
          omega)
        (fun x i hx => by
          change Function.update db.extToInt ext (some db.intToExt.length) x = some i at hx
          rw [hids]
          by_cases hxe : x = ext
          · subst hxe
            rw [Function.update_self] at hx
            cases hx
            exact List.getElem?_concat_length ..
          · rw [Function.update_of_ne hxe] at hx
            have := hmap x i hx
            exact (List.getElem?_append_left (List.getElem?_eq_some_iff.1 this).1).trans this) hs
      refine ⟨index', map', ?_, ?_, h2.trans hkind₁, h3, fun x i hx => ?_⟩
      · rw [he]
        simp [hdb₂, VDB.mapId, VDB.pushNode, VDB.withIndex]
      · rw [h1, hids]
        simp
        omega
      · have := h4 x i hx
        rw [hids, List.append_assoc] at this
        exact this
    · rw [if_pos hid] at hs
      exact absurd rfl hs

/-- **A compaction** that fails no `assert` keeps the live rows, if its metadata are permuted. -/
theorem Follows.compact (hJ : Column.Invariant False J anyWrite) (h : db.Follows J config es)
    {m : MetadataStore ι} (hm : db.metadata.permute db.liveIds = .ok () m)
    (hs : ¬ (db.compact K).Aborted) :
    ∃ es' db', db.compact K = .ok () db' ∧ db'.Follows J config es' := by
  unfold VDB.compact at hs ⊢
  dsimp only at hs ⊢
  rw [liveRows_eq h.ids h.deleted h.vectors] at hs ⊢
  have hlives := liveIds_eq h.ids h.deleted
  have hstore := h.metadata.permute hJ (hlives ▸ liveRows_rows es) hm
  rw [hlives, keptRows_liveNumbers] at hstore
  have hlive : ∀ e ∈ es.filter Entry.isLive, e.isLive = true := fun e he => (List.mem_filter.1 he).2
  have hivf : db.config.kind = .ivf → es = [] := fun hk =>
    eq_nil_of_ivf h.kind h.sound h.size (h.configured ▸ hk)
  simp only [hm, Outcome.mapState, Outcome.andThen] at hs ⊢
  split_ifs at hs ⊢ with htrain
  · exact absurd (by rw [hivf htrain.1]; rfl) htrain.2
  generalize hdb₁ : VDB.clear _ = db₁ at hs ⊢
  have hcleared : db₁.config = db.config ∧ db₁.index = Index.make db.config ∧
      db₁.extToInt = (fun _ => none) ∧ db₁.intToExt = [] ∧ db₁.deleted = [] ∧ db₁.vectors = [] ∧
      db₁.metadata = m := by
    rw [← hdb₁]
    exact ⟨rfl, rfl, rfl, rfl, rfl, rfl, rfl⟩
  obtain ⟨hconfig, hindex, hext, hids, hdeleted, hvectors, hmetadata⟩ := hcleared
  have hkind : db₁.index.kind = db.config.kind := hindex ▸ (Index.size_make _).2
  have hsize : db₁.index.size = 0 := hindex ▸ (Index.size_make _).1
  obtain ⟨index, map, he, h1, h2, h3, h4⟩ := appendAll_returns (hsize.trans (hids ▸ rfl))
    (hindex ▸ Index.sound_make _) (fun hk => by rw [hivf (hkind ▸ hk)]; rfl)
    (fun hk => by
      -- the rows were in a graph with the same room
      have hroom := h.sound.size_le (h.kind.trans (h.configured ▸ hkind ▸ hk))
      rw [hsize, List.length_map, Nat.zero_add]
      exact (List.length_filter_le _ _).trans (h.size ▸ hroom))
    (fun x i hx => by
      rw [hext] at hx
      cases hx) hs
  rw [hids, List.nil_append] at h4
  exact ⟨es.filter Entry.isLive, _, he,
    { configured := hconfig.trans h.configured
      kind := h2.trans (hkind.trans (congrArg VDBConfig.kind h.configured))
      sound := h3
      size := h1.trans (by rw [hids, List.length_map]; exact Nat.zero_add _)
      ids := by
        change db₁.intToExt ++ _ = _
        rw [hids, List.nil_append, List.map_map]
        rfl
      deleted := by
        change db₁.deleted ++ _ = _
        rw [hdeleted, List.nil_append, List.map_map]
        exact List.map_congr_left fun e he => by simp [hlive e he]
      vectors := by
        change db₁.vectors ++ _ = _
        rw [hvectors, List.nil_append, List.map_map]
        rfl
      metadata := hmetadata.symm ▸ hstore
      map := fun x i hx => by
        have hx' := h4 x i hx
        rw [List.map_map, List.getElem?_map, Option.map_eq_some_iff] at hx'
        obtain ⟨e, he, hx'⟩ := hx'
        exact ⟨e, he, hlive e (List.mem_of_getElem? he), hx'⟩ }⟩

end Calls

/-! ### Reloads -/

section Reloads

variable [ColumnIndex ι] {db₀ : VDB ι} {lsn : ℕ}

/-- What is written of the database fits the widths it is written in, but for the dimension. -/
structure WordSized (db : VDB ι) (lsn : ℕ) : Prop where
  sizes : db.SizesFit
  lsn : lsn < 2 ^ 64
  liveCount : db.liveCount < 2 ^ 64
  deletedCount : db.deletedCount < 2 ^ 64
  dict : ∀ c ∈ db.metadata.columns, c.dict.length < 2 ^ 64

instance (db : VDB ι) (lsn : ℕ) : Decidable (db.WordSized lsn) :=
  decidable_of_iff (db.SizesFit ∧ lsn < 2 ^ 64 ∧ db.liveCount < 2 ^ 64 ∧ db.deletedCount < 2 ^ 64 ∧
      ∀ c ∈ db.metadata.columns, c.dict.length < 2 ^ 64)
    ⟨fun h => ⟨h.1, h.2.1, h.2.2.1, h.2.2.2.1, h.2.2.2.2⟩,
      fun h => ⟨h.sizes, h.lsn, h.liveCount, h.deletedCount, h.dict⟩⟩

omit [ColumnIndex ι] in
theorem getD_deleted (h : db.deleted = es.map fun e => !e.isLive) (hi : es[i]? = some e) :
    db.deleted.getD i false = !e.isLive := by
  rw [h]
  exact MetadataStore.getD_of_getElem (by rw [List.getElem?_map, hi]; rfl) false

/-- What a reload makes of a database whose metadata and index are read back. -/
theorem reload_eq {t m : MetadataStore ι} (hdim : db.config.dim < 2 ^ 32) (hw : db.WordSized lsn)
    (hdeleted : db.deleted.length = db.intToExt.length)
    (hvectors : db.vectors.length = db.intToExt.length)
    (ht : MetadataStore.new db.config.schema = .ok t)
    (hread : t.deserialize.Reads db.metadata.serialize db.metadata.reread)
    (hindex : (Index.make db.config).deserialize.Reads db.index.serialize db.index.undrawn)
    (hm : db.metadata.reread.rebuildDerivedState db.deleted = .ok () m) :
    db.reload lsn = { db with
      extToInt := liveMap db.intToExt db.deleted, index := db.index.undrawn, metadata := m } := by
  have hnew : VDB.new db.config =
      .ok { config := db.config, index := Index.make db.config, metadata := t } := by
    unfold VDB.new
    rw [ht]
  have hconfig :
    ({ config := db.config, index := Index.make db.config, metadata := t } : VDB ι).config =
      db.config := rfl
  have hload := reads_save _ hconfig hdim hw.lsn hw.sizes hw.liveCount hw.deletedCount
    (hdeleted ▸ hw.sizes.rows) (hvectors ▸ hw.sizes.rows) hread hm hindex []
  rw [List.append_nil] at hload
  unfold VDB.reload
  rw [hnew]
  dsimp only
  rw [hload]

/-- What a reload makes of a database that holds some entries; one with a dimension of more than 32
bits is not read back, and stays as it is. -/
theorem reload_cases (hsized : ∀ a c rows, J a c rows → c.Sized rows.length)
    (hgot : ∀ {a c rows} spec, db.config.schema[a]? = some spec → J a c rows →
      J a (c.reread (Column.new spec)).clearDerived (Column.unpublished rows))
    (hR : ∀ {a c c' rows i v}, J a c rows → rows[i]? = some (false, v) →
      c.rebuildRow i = .ok () c' → J a c' (rows.set i (true, v)))
    (hmeta : db.metadata.Holds J db.config.schema (es.map Entry.row))
    (hkind : db.index.kind = db.config.kind) (hsound : db.index.Sound)
    (hids : db.intToExt = es.map Entry.ext) (hdeleted : db.deleted = es.map fun e => !e.isLive)
    (hvectors : db.vectors = es.map Entry.vec) (hw : db.WordSized lsn) (hrebuilds : db.Rebuilds) :
    db.reload lsn = db ∨
      ∃ m, db.reload lsn = { db with
          extToInt := liveMap db.intToExt db.deleted, index := db.index.undrawn, metadata := m } ∧
        m.Holds J db.config.schema (es.map Entry.row) := by
  obtain ⟨t, ht⟩ := MetadataStore.new_ok (ι := ι) hmeta.checked
  -- a wider dimension is not the one that is read back
  by_cases hdim : db.config.dim < 2 ^ 32
  · cases hm : db.metadata.reread.rebuildDerivedState db.deleted with
    | error e m =>
      unfold Rebuilds at hrebuilds
      rw [hm] at hrebuilds
      exact hrebuilds.elim
    | ok _ m =>
      refine .inr ⟨m, ?_, ?_⟩
      · exact reload_eq hdim hw (by rw [hdeleted, hids, List.length_map, List.length_map])
          (by rw [hvectors, hids, List.length_map, List.length_map]) ht
          (hmeta.rereads hsized hw.sizes.metadata hw.dict ht) (hsound.reads hw.sizes.index hkind) hm
      · refine hmeta.rebuildReread (J := J) hgot hR (fun i r hi => ?_) hm
        obtain ⟨e, he, rfl⟩ := Option.map_eq_some_iff.1 ((List.getElem?_map ..).symm.trans hi)
        exact getD_deleted hdeleted he
  · have hne : db.config.dim % 2 ^ 32 ≠ db.config.dim := by omega
    have hnew : VDB.new db.config =
        .ok { config := db.config, index := Index.make db.config, metadata := t } := by
      unfold VDB.new
      rw [ht]
    obtain ⟨e, hload⟩ := load_fails
      { config := db.config, index := Index.make db.config, metadata := t } lsn (.inl hne) []
    rw [List.append_nil] at hload
    refine .inl ?_
    unfold VDB.reload
    rw [hnew]
    dsimp only
    rw [hload]

/-- **A reload** keeps every row. -/
theorem Follows.reload (hsized : ∀ a c rows, J a c rows → c.Sized rows.length)
    (hgot : ∀ {a c rows} spec, config.schema[a]? = some spec → J a c rows →
      J a (c.reread (Column.new spec)).clearDerived (Column.unpublished rows))
    (hR : ∀ {a c c' rows i v}, J a c rows → rows[i]? = some (false, v) →
      c.rebuildRow i = .ok () c' → J a c' (rows.set i (true, v)))
    (h : db.Follows J config es) (hw : db.WordSized lsn) (hrebuilds : db.Rebuilds) :
    (db.reload lsn).Follows J config es := by
  obtain rfl : db.config = config := h.configured
  rcases reload_cases hsized hgot hR h.metadata h.kind h.sound h.ids h.deleted h.vectors hw
    hrebuilds
    with hsame | ⟨m, hreload, hstore⟩
  · rwa [hsame]
  · rw [hreload]
    exact
    { configured := rfl
      kind := (Index.kind_undrawn _).trans h.kind
      sound := h.sound.undrawn
      size := (Index.size_undrawn _).trans h.size
      ids := h.ids, deleted := h.deleted, vectors := h.vectors, metadata := hstore
      map := fun x i hx => lives_of_liveMap (fun _ _ he => getD_deleted h.deleted he)
        (by rwa [← h.ids]) }

end Reloads

/-! ### Calls -/

section Steps

variable {ι δ : Type} [ColumnIndex ι] [Distance δ] {K : Kernels δ} {db db' : VDB ι}
  {J : ℕ → Column ι → List ColRow → Prop} {config : VDBConfig} {es : List Entry} {op : Op}
  {ext : ExternalId} {vec : Vec} {rec : Record} {old iid : InternalId}

/-- The call returns, or throws with nothing changed but the next id. -/
def Settles (K : Kernels δ) (db : VDB ι) (op : Op) : Prop :=
  (db.call K op).Returns ∨ db.apply K op = { db with nextExtId := (db.apply K op).nextExtId }

/-- The call settles, and a snapshot fits the widths it is written in and is read back. -/
structure Steps (K : Kernels δ) (db : VDB ι) (op : Op) : Prop where
  settles : db.Settles K op
  reloads : ∀ lsn, op = .reload lsn → db.WordSized lsn ∧ db.Rebuilds

/-- **One call** keeps the rows, if it settles. -/
theorem Follows.step (hJ : Column.Invariant False J anyWrite)
    (hsized : ∀ a c rows, J a c rows → c.Sized rows.length)
    (hgot : ∀ {a c rows} spec, config.schema[a]? = some spec → J a c rows →
      J a (c.reread (Column.new spec)).clearDerived (Column.unpublished rows))
    (hR : ∀ {a c c' rows i v}, J a c rows → rows[i]? = some (false, v) →
      c.rebuildRow i = .ok () c' → J a c' (rows.set i (true, v)))
    (h : ∃ es, db.Follows J config es) (hs : db.Steps K op) :
    ∃ es, (db.apply K op).Follows J config es := by
  obtain ⟨es, h⟩ := h
  obtain ⟨hsettles, hreloads⟩ := hs
  rcases hsettles with hreturns | hsame
  -- a call that returns, by its kind; one that throws has changed nothing but the next id
  · cases hc : db.call K op with
    | error e s =>
      rw [hc] at hreturns
      exact hreturns.elim
    | ok reply s =>
      unfold VDB.apply
      rw [hc]
      cases op with
      | insert vec rec =>
        obtain ⟨_, db₁, he, hend⟩ := Outcome.andThen_ok hc
        cases hend
        exact h.insert hJ he
      | insertReserved ext vec rec =>
        obtain ⟨_, db₁, he, hend⟩ := Outcome.andThen_ok hc
        cases hend
        exact h.insertReserved hJ he
      | remove ext =>
        obtain ⟨_, db₁, he, hend⟩ := Outcome.andThen_ok hc
        cases hend
        exact h.remove hJ he
      | update ext vec rec =>
        obtain ⟨_, db₁, he, hend⟩ := Outcome.andThen_ok hc
        cases hend
        exact h.update hJ he
      | setMetadata ext rec =>
        obtain ⟨_, db₁, he, hend⟩ := Outcome.andThen_ok hc
        cases hend
        exact h.setMetadata hJ he
      | compact =>
        obtain ⟨_, db₁, he, hend⟩ := Outcome.andThen_ok hc
        cases hend
        have hpermute := he
        unfold VDB.compact at hpermute
        obtain ⟨_, db₂, hstored, -⟩ := Outcome.andThen_ok hpermute
        obtain ⟨m, hm, -⟩ := Outcome.mapState_ok hstored
        obtain ⟨es', db', hcompact, hfollows⟩ := h.compact (K := K) hJ hm (by rw [he]; exact id)
        rw [he] at hcompact
        cases hcompact
        exact ⟨es', hfollows⟩
      | reload lsn =>
        cases hc
        exact ⟨es, h.reload hsized hgot hR (hreloads lsn rfl).1 (hreloads lsn rfl).2⟩
  · rw [hsame]
    exact ⟨es, h.frame rfl ⟨h.sound, rfl, rfl⟩ rfl rfl rfl rfl rfl⟩

/-- An insert throws before it changes anything, or it comes to publish its node. -/
theorem insertReserved_reaches (K : Kernels δ) (db : VDB ι) (ext : ExternalId) (vec : Vec)
    (rec : Record) :
    (∃ e, db.insertReserved K ext vec rec = .error e db ∧
        (db.validate rec = .ok () → ¬ (db.index.allocate K db.config.metric vec).Returns)) ∨
      (db.insertReserved K ext vec rec).Aborted ∨
      db.validate rec = .ok () ∧ (db.index.allocate K db.config.metric vec).Returns ∧
        ∃ iid db₁, db.insertAllocate K ext vec rec = .ok iid db₁ ∧
          db.insertReserved K ext vec rec = (db₁.link K iid).insertPublish ext iid := by
  unfold VDB.insertReserved VDB.insertAllocate
  cases hv : db.validate rec with
  | error e => exact .inl ⟨e, rfl, fun h => by cases h⟩
  | ok _ =>
    dsimp only
    rcases allocateNode_cases K db ext vec with ⟨e, ha, hnot⟩ | ⟨s, ha⟩ | ⟨iid, db₁, ha⟩
    · exact .inl ⟨e, by rw [ha]; rfl, fun _ => hnot⟩
    · exact .inr (.inl (by rw [ha]; rfl))
    · obtain ⟨index, hindex, rfl, rfl⟩ := allocateNode_ok ha
      obtain ⟨m, hm⟩ := appendRow_returns hv
      refine .inr (.inr ⟨rfl, by rw [hindex]; trivial, ?_⟩)
      rw [ha]
      simp only [Outcome.andThen, hm, Outcome.mapState]
      exact ⟨_, _, rfl, rfl⟩

omit [ColumnIndex ι] [Distance δ] in
theorem appendMetadata_returns {rec : Option Record} (hv : db.validateUpdate rec = .ok ()) :
    ∃ m, db.appendMetadata old rec = .ok () m := by
  cases rec with
  | some rec => exact appendRow_returns hv
  | none => exact ⟨_, rfl⟩

/-- An update throws before it changes anything, or it finds nothing, or it comes to publish its
node. -/
theorem update_reaches (K : Kernels δ) (db : VDB ι) (ext : ExternalId) (vec : Vec)
    (rec : Option Record) :
    (∃ e, db.update K ext vec rec = .error e db ∧ (db.validateUpdate rec = .ok () →
        ¬ (db.index.allocate K db.config.metric vec).Returns)) ∨
      (db.update K ext vec rec).Aborted ∨
      (db.extToInt ext = none ∧ db.update K ext vec rec = .ok false db) ∨
      db.validateUpdate rec = .ok () ∧ (db.index.allocate K db.config.metric vec).Returns ∧
        ∃ old iid db₁, db.updateAllocate K ext vec rec = .ok (some (old, iid)) db₁ ∧
          db.update K ext vec rec =
            ((db₁.link K iid).updatePublish ext old iid).andThen fun _ db => .ok true db := by
  unfold VDB.update VDB.updateAllocate
  cases hv : db.validateUpdate rec with
  | error e => exact .inl ⟨e, rfl, fun h => by cases h⟩
  | ok _ =>
    dsimp only
    cases hx : db.extToInt ext with
    | none => exact .inr (.inr (.inl ⟨rfl, rfl⟩))
    | some old =>
      dsimp only
      rcases allocateNode_cases K db ext vec with ⟨e, ha, hnot⟩ | ⟨s, ha⟩ | ⟨iid, db₁, ha⟩
      · exact .inl ⟨e, by rw [ha]; rfl, fun _ => hnot⟩
      · exact .inr (.inl (by rw [ha]; rfl))
      · obtain ⟨index, hindex, rfl, rfl⟩ := allocateNode_ok ha
        obtain ⟨m, hm⟩ : ∃ m, VDB.appendMetadata { db with
            index, intToExt := db.intToExt ++ [ext], deleted := db.deleted ++ [true]
            vectors := db.vectors ++ [vec], deletedCount := db.deletedCount + 1 } old rec =
            .ok () m := appendMetadata_returns hv
        refine .inr (.inr (.inr ⟨rfl, by rw [hindex]; trivial, ?_⟩))
        rw [ha]
        simp only [Outcome.andThen, hm, Outcome.mapState]
        exact ⟨old, _, _, rfl, rfl⟩

variable [TotalColumnIndex ι]

omit [Distance δ] in
/-- Where no column index throws, publishing returns. -/
theorem insertPublish_returns (db : VDB ι) (ext : ExternalId) (iid : InternalId) :
    ∃ db', db.insertPublish ext iid = .ok () db' := by
  obtain ⟨m, hm⟩ := db.metadata.markLive_returns iid
  exact ⟨_, by rw [VDB.insertPublish, goLive, hm]; rfl⟩

omit [Distance δ] in
theorem updatePublish_returns (db : VDB ι) (ext : ExternalId) (old iid : InternalId) :
    ∃ db', db.updatePublish ext old iid = .ok () db' := by
  obtain ⟨m, hm⟩ := db.metadata.markLive_returns iid
  obtain ⟨m', hm'⟩ := m.markDead_returns old
  rw [VDB.updatePublish, goLive, hm]
  dsimp only [Outcome.mapState, Outcome.andThen, VDB.goDead, VDB.withMetadata]
  rw [hm']
  exact ⟨_, rfl⟩

/-- Where no column index throws, an insert throws before it changes anything. -/
theorem insertReserved_cases (K : Kernels δ) (db : VDB ι) (ext : ExternalId) (vec : Vec)
    (rec : Record) :
    (∃ e, db.insertReserved K ext vec rec = .error e db) ∨
      (db.insertReserved K ext vec rec).Aborted ∨ (db.insertReserved K ext vec rec).Returns := by
  rcases insertReserved_reaches K db ext vec rec with ⟨e, he, -⟩ | hab | ⟨-, -, iid, db₁, -, heq⟩
  · exact .inl ⟨e, he⟩
  · exact .inr (.inl hab)
  · obtain ⟨db', hpublish⟩ := insertPublish_returns (db₁.link K iid) ext iid
    exact .inr (.inr (by rw [heq, hpublish]; trivial))

theorem update_cases (K : Kernels δ) (db : VDB ι) (ext : ExternalId) (vec : Vec)
    (rec : Option Record) :
    (∃ e, db.update K ext vec rec = .error e db) ∨
      (db.update K ext vec rec).Aborted ∨ (db.update K ext vec rec).Returns := by
  rcases update_reaches K db ext vec rec with
    ⟨e, he, -⟩ | hab | ⟨-, hnone⟩ | ⟨-, -, old, iid, db₁, -, heq⟩
  · exact .inl ⟨e, he⟩
  · exact .inr (.inl hab)
  · exact .inr (.inr (by rw [hnone]; trivial))
  · obtain ⟨db', hpublish⟩ := updatePublish_returns (db₁.link K iid) ext old iid
    exact .inr (.inr (by rw [heq, hpublish]; trivial))

/-- Where no column index throws, every call settles that fails no `assert`. -/
theorem Follows.settles (hJ : Column.Invariant False J anyWrite) (h : db.Follows J config es)
    (hs : ¬ (db.call K op).Aborted) : db.Settles K op := by
  have hsame : db = { db with nextExtId := db.nextExtId } := rfl
  unfold Settles VDB.apply
  cases op with
  | insert vec rec =>
    dsimp only [VDB.call] at hs ⊢
    unfold VDB.insert at hs ⊢
    cases hv : db.validate rec with
    | error e => exact .inr rfl
    | ok _ =>
      rw [hv] at hs
      dsimp only at hs ⊢
      -- an insert throws for its record or for the index, before anything but the id has changed
      rcases insertReserved_cases K db.reserveId.2 db.reserveId.1 vec rec with ⟨e, hi⟩ | hi | hi
      · rw [hi]
        exact .inr rfl
      · exact absurd hi.andThen.andThen hs
      · cases hr : db.reserveId.2.insertReserved K db.reserveId.1 vec rec with
        | ok _ db' => exact .inl trivial
        | error e db' =>
          rw [hr] at hi
          exact hi.elim
  | insertReserved ext vec rec =>
    dsimp only [VDB.call] at hs ⊢
    rcases insertReserved_cases K db ext vec rec with ⟨e, hi⟩ | hi | hi
    · rw [hi]
      exact .inr rfl
    · exact absurd hi.andThen hs
    · cases hr : db.insertReserved K ext vec rec with
      | ok _ db' => exact .inl trivial
      | error e db' =>
        rw [hr] at hi
        exact hi.elim
  | remove ext =>
    refine .inl ?_
    dsimp only [VDB.call]
    unfold VDB.remove
    cases hx : db.extToInt ext with
    | none => trivial
    | some iid =>
      obtain ⟨m, hm⟩ := db.metadata.markDead_returns iid
      dsimp only [VDB.goDead]
      rw [hm]
      trivial
  | update ext vec rec =>
    dsimp only [VDB.call] at hs ⊢
    rcases update_cases K db ext vec rec with ⟨e, hi⟩ | hi | hi
    · rw [hi]
      exact .inr rfl
    · exact absurd hi.andThen hs
    · cases hr : db.update K ext vec rec with
      | ok _ db' => exact .inl trivial
      | error e db' =>
        rw [hr] at hi
        exact hi.elim
  | setMetadata ext rec =>
    dsimp only [VDB.call]
    unfold VDB.setMetadata
    cases hv : db.validate rec with
    | error e => exact .inr rfl
    | ok _ =>
      refine .inl ?_
      dsimp only
      cases hx : db.extToInt ext with
      | none => trivial
      | some iid =>
        obtain ⟨m, hm⟩ := db.metadata.setRow_returns hv iid
        dsimp only
        rw [hm]
        trivial
  | compact =>
    obtain ⟨m, hm⟩ := db.metadata.permute_returns db.liveIds
    obtain ⟨es', db', hcompact, -⟩ := h.compact (K := K) hJ hm fun hab => hs hab.andThen
    refine .inl ?_
    dsimp only [VDB.call]
    rw [hcompact]
    trivial
  | reload lsn => exact .inl trivial

end Steps

end VDB

end Database

end Vdb
