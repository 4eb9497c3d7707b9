import Vdb.Database.Alignment
import Vdb.Database.Allowlist
import Vdb.Database.Exact
import Vdb.Database.Graph
import Vdb.Database.Ranges
import Vdb.Database.Refinement
import Vdb.Metadata.Room
import Vdb.Metadata.TreeIndex

/-!
# Calls that throw

An insert and an update first append a pending node, and then publish it: they make its row live,
put it into the counters and into the index of one column after the other, and record its id at the
end. `Intact` is what the readers of a database rely on.

* `VDB.intact_run` : a call leaves the database intact just if the indexes of the columns have room
  for the row it publishes.
* `VDB.overfull` : an insert for which a tree has no room throws, and the next search finds its row.
-/

namespace Vdb

namespace Database

open Metadata
open VDB (Lives)

/-- The calls that add a row. -/
def Op.Adds : Op → Prop
  | .insert _ _ | .insertReserved _ _ _ | .update _ _ _ => True
  | _ => False

instance Op.decidableAdds : (op : Op) → Decidable op.Adds
  | .insert _ _ | .insertReserved _ _ _ | .update _ _ _ => .isTrue trivial
  | .remove _ | .setMetadata _ _ | .compact | .reload _ => .isFalse id

namespace VDB

variable {ι δ : Type} [ColumnIndex ι] [Distance δ] {K : Kernels δ} {config : VDBConfig}
  {db db' db₀ : VDB ι} {es : List Entry} {ext x : ExternalId} {i iid old : InternalId}
  {vec query : Vec}
  {rec : Record} {op : Op} {pred : Predicate} {k : ℕ}

/-- The ids are what one of the searches answers. -/
def Answers (K : Kernels δ) (db : VDB ι) (query : Vec) (k : ℕ) (ids : List ExternalId) : Prop :=
  db.search K query k = .ok ids ∨ ∃ pred, db.searchWhere K query k pred = .ok ids ∨
    db.searchPrefiltered K query k pred = .ok ids ∨
      ∃ plan, db.searchAuto K plan query k pred = .ok ids

/-- The ids, the rows, the counters, the trees and the searches agree on what is live. -/
structure Intact [LawfulColumnIndex ι] (K : Kernels δ) (db : VDB ι) : Prop where
  ids : ∃ ids : Finset ExternalId, (∀ x, x ∈ ids ↔ db.contains x = true) ∧ db.liveCount = ids.card
  rows : db.liveCount = db.deleted.count false
  /-- A value is counted once for each live row that has it. -/
  count : ∀ a code, db.metadata.count a code = db.liveIds.countP fun i =>
    (db.metadata.column a).isPresent i && decide (code ∈ (db.metadata.column a).codesAt i)
  texts : ∀ a, (db.metadata.column a).type = .text →
    db.metadata.textLiveCount a = db.liveIds.countP (db.metadata.column a).isPresent ∧
      (db.metadata.column a).totalDocLen =
        (db.liveIds.map fun i => (db.metadata.column a).docLen.getD i 0).sum
  /-- A tree has one pair for each live row with a value. -/
  pairs : ∀ a spec, db.config.schema[a]? = some spec → spec.indexed = true →
    ∃ t, (db.metadata.column a).index = some t ∧ LawfulColumnIndex.Has t (db.pairs a)
  answers : ∀ query k ids, db.Answers K query k ids → ∀ x ∈ ids, db.contains x = true

/-! ### What a database that holds some entries answers -/

section Holding

variable {J : ℕ → Column ι → List ColRow → Prop}

omit [ColumnIndex ι] [Distance δ] in
/-- What is reported is contained, if it has been found on live rows. -/
theorem Holds.contains_ids (h : db.Holds J config es) {found : List (InternalId × δ)}
    (hfound : ∀ e ∈ found, e.1 ∈ db.liveIds) :
    ∀ x ∈ found.map (fun e => db.intToExt.getD e.1 0), db.contains x = true := by
  intro x hx
  obtain ⟨e, he, rfl⟩ := List.mem_map.1 hx
  obtain ⟨entry, hentry, hlive⟩ := (mem_liveIds h).1 (hfound e he)
  have hext : db.intToExt.getD e.1 0 = entry.ext := by
    rw [h.ids]
    exact MetadataStore.getD_of_getElem (by rw [List.getElem?_map, hentry]; rfl) 0
  rw [hext, VDB.contains, (h.map _ e.1).2 ⟨_, hentry, hlive, rfl⟩]
  rfl

omit [ColumnIndex ι] in
/-- The index finds rows, and the rows that are not live are dropped. -/
theorem Holds.found_live (h : db.Holds J config es) {n : ℕ} {found : List (InternalId × δ)}
    (hs : db.index.search K db.config.metric query n = .ok found) {e : InternalId × δ}
    (he : e ∈ found) (hlive : (!db.deleted.getD e.1 false) = true) : e.1 ∈ db.liveIds := by
  refine List.mem_filter.2 ⟨List.mem_range.2 ?_, hlive⟩
  rw [h.ids, List.length_map, ← h.size]
  exact Index.Sound.search_lt h.sound hs e he

omit [ColumnIndex ι] in
theorem Holds.collect_live (h : db.Holds J config es) {found : List (InternalId × δ)}
    (hc : db.collect K query k = .ok found) : ∀ e ∈ found, e.1 ∈ db.liveIds := by
  unfold VDB.collect at hc
  split at hc
  · cases hc
  · next hs =>
    cases hc
    intro e he
    obtain ⟨hmem, hlive⟩ := List.mem_filter.1 (List.mem_of_mem_take he)
    exact h.found_live hs hmem hlive

omit [ColumnIndex ι] in
theorem Holds.collectResolved_live (h : db.Holds J config es) {found : List (InternalId × δ)}
    {r : ResolvedPredicate} (hc : db.collectResolved K query k r = .ok found) :
    ∀ e ∈ found, e.1 ∈ db.liveIds := by
  unfold VDB.collectResolved at hc
  split at hc
  · cases hc
  · split at hc
    · cases hc
    · next hs =>
      cases hc
      intro e he
      obtain ⟨hmem, hlive⟩ := List.mem_filter.1 (List.mem_of_mem_take he)
      exact h.found_live hs hmem (Bool.and_eq_true_iff.1 hlive).1

omit [ColumnIndex ι] in
theorem prefilterScan_live {allowlist : List InternalId} (hall : ∀ i ∈ allowlist, i ∈ db.liveIds) :
    ∀ e ∈ db.prefilterScan K query k allowlist, e.1 ∈ db.liveIds := by
  intro e he
  have hsorted := (List.mem_insertionSort _).1 (List.mem_of_mem_take he)
  obtain ⟨i, hi, rfl⟩ := List.mem_map.1 hsorted
  exact hall i hi

variable [LawfulColumnIndex ι]

/-- What is known of the columns between two calls. -/
def Counted (config : VDBConfig) (a : ℕ) (c : Column ι) (rows : List ColRow) : Prop :=
  c.Ok rows ∧ KeyedBy config a c rows

omit [Distance δ] in
theorem Holds.keyed (h : db.Holds (Counted config) config es) :
    db.Holds (KeyedBy config) config es :=
  { h with metadata := h.metadata.mono fun _ _ _ hc => hc.2 }

omit [ColumnIndex ι] [LawfulColumnIndex ι] [Distance δ] in
theorem Holds.follows (h : db.Holds J config es) : db.Follows J config es :=
  { h with map := fun x i => (h.map x i).1 }

omit [Distance δ] in
/-- A predicate that is resolved to a list of rows is resolved to live ones. -/
theorem Holds.resolve_live (h : db.Holds (KeyedBy config) config es) {allowlist : List InternalId}
    (hr : db.Resolves pred allowlist) : ∀ i ∈ allowlist, i ∈ db.liveIds := by
  cases hk : pred.kind with
  | eq =>
    obtain ⟨r, hresolve, ha⟩ := hr
    obtain ⟨-, hlist⟩ := MetadataStore.resolve_eq hk hresolve
    rw [ha] at hlist
    cases hlist
    intro i hi
    split at hi
    · cases hi
    · obtain ⟨hlt, hlive⟩ := Bool.and_eq_true_iff.1 (List.mem_filter.1 hi).2
      refine List.mem_filter.2 ⟨List.mem_range.2 ?_, hlive⟩
      rw [h.ids, List.length_map]
      rw [decide_eq_true_iff, h.deleted, List.length_map] at hlt
      exact hlt
  | range => exact (h.follows.ranged hk hr).2.1

omit [Distance δ] [LawfulColumnIndex ι] in
/-- What a search goes on with when its predicate is resolved. -/
theorem resolved_live {next : ResolvedPredicate → Except Exn (List (InternalId × δ))}
    (hnext : ∀ r, db.metadata.resolve pred db.deleted = .ok r →
      ∀ l, next r = .ok l → ∀ e ∈ l, e.1 ∈ db.liveIds) :
    ∀ l, (db.metadata.resolve pred db.deleted >>= next) = .ok l → ∀ e ∈ l, e.1 ∈ db.liveIds := by
  intro l hl
  cases hr : db.metadata.resolve pred db.deleted with
  | error e =>
    rw [hr] at hl
    cases hl
  | ok r =>
    rw [hr] at hl
    exact hnext r hr l hl

theorem Holds.collectPrefiltered_live (h : db.Holds (KeyedBy config) config es) :
    ∀ l, db.collectPrefiltered K query k pred = .ok l → ∀ e ∈ l, e.1 ∈ db.liveIds := by
  refine resolved_live fun r hr l hl => ?_
  cases ha : r.allowlist with
  | none =>
    rw [ha] at hl
    cases hl
  | some allowlist =>
    rw [ha] at hl
    cases hl
    exact prefilterScan_live (h.resolve_live ⟨r, hr, ha⟩)

theorem Holds.collectAuto_live (h : db.Holds (KeyedBy config) config es)
    {plan : ℕ → ℕ → ℕ → ℕ → FilterStrategy} :
    ∀ l, db.collectAuto K plan query k pred = .ok l → ∀ e ∈ l, e.1 ∈ db.liveIds := by
  refine resolved_live fun r hr l hl => ?_
  cases ha : r.allowlist with
  | none =>
    rw [ha] at hl
    exact h.collectResolved_live hl
  | some allowlist =>
    rw [ha] at hl
    dsimp only at hl
    split_ifs at hl
    · cases hl
      exact prefilterScan_live (h.resolve_live ⟨r, hr, ha⟩)
    · exact h.collectResolved_live hl

/-- **What a search answers** is contained. -/
theorem Holds.answers (h : db.Holds (KeyedBy config) config es) {ids : List ExternalId}
    (ha : db.Answers K query k ids) : ∀ x ∈ ids, db.contains x = true := by
  have hreport : ∀ {found : Except Exn (List (InternalId × δ))},
      (∀ l, found = .ok l → ∀ e ∈ l, e.1 ∈ db.liveIds) →
      ∀ ids, report idBytes k found db.extOf = .ok ids → ∀ x ∈ ids, db.contains x = true := by
    intro found hlive ids hids
    by_cases hmax : maxSize idBytes < k
    · rw [report_full hmax] at hids
      cases hids
    · rw [report_ok (not_lt.1 hmax)] at hids
      cases found with
      | error e => cases hids
      | ok l =>
        cases hids
        exact h.contains_ids (hlive l rfl)
  by_cases hk : k = 0
  · -- no search asks for anything
    simp only [Answers, search, searchWhere, searchPrefiltered, searchAuto, if_pos hk] at ha
    have hnone : ids = [] := by
      rcases ha with hs | ⟨-, hs | hs | ⟨-, hs⟩⟩ <;> exact (Except.ok.inj hs).symm
    rw [hnone]
    rintro x ⟨⟩
  · simp only [Answers, search, searchWhere, searchPrefiltered, searchAuto, if_neg hk] at ha
    obtain hs | ⟨pred, hs | hs | ⟨plan, hs⟩⟩ := ha
    · exact hreport (fun l hl => h.collect_live hl) ids hs
    · unfold reportWhere at hs
      cases hr : db.metadata.resolve pred db.deleted with
      | error e =>
        rw [hr] at hs
        cases hs
      | ok r =>
        rw [hr] at hs
        exact hreport (fun l hl => h.collectResolved_live hl) ids hs
    · exact hreport h.collectPrefiltered_live ids hs
    · exact hreport h.collectAuto_live ids hs

omit [ColumnIndex ι] [LawfulColumnIndex ι] [Distance δ] in
/-- The live values of a column, by their rows. -/
theorem Holds.liveValues_eq (h : db.Holds J config es) (a : ℕ) :
    Column.liveValues ((es.map Entry.row).map (Row.col a)) =
      db.liveIds.map fun i => (entryAt es i).row.attr a := by
  have hlive : (liveNumbers es).map (fun i => (entryAt es i).row.attr a) =
      (es.filter Entry.isLive).map fun e => e.row.attr a := by
    rw [← map_liveNumbers, List.map_map]
    rfl
  rw [liveIds_eq h.ids h.deleted, hlive, Column.liveValues, List.map_map, List.filter_map,
    List.map_map]
  rfl

omit [Distance δ] in
/-- The counters of a column, by its rows. -/
theorem Holds.counted (h : db.Holds (Counted config) config es) {a : ℕ} {c : Column ι}
    (hc : db.metadata.columns[a]? = some c) (code : ℕ) :
    c.count.getD code 0 =
      db.liveIds.countP fun i => c.isPresent i && decide (code ∈ c.codesAt i) := by
  have hok := (h.metadata.column a c hc).1
  rw [hok.count, Column.countP_live _ fun v => decide (code ∈ c.codesOf v), h.liveValues_eq,
    List.countP_map]
  refine List.countP_congr fun i hi => ?_
  obtain ⟨e, he, -⟩ := (mem_liveIds h).1 hi
  have hstores := hok.stores_at (MetadataStore.col_of_getElem (getElem?_row he) a)
  rw [Function.comp_apply, entryAt_of_getElem he, hstores.isPresent]
  cases hnull : (e.row.attr a).isNull with
  | true =>
    rw [Column.codesOf_null c hnull]
    simp
  | false =>
    rw [hstores.codesAt hok.dict hnull]
    simp

omit [Distance δ] in
theorem Holds.texts (h : db.Holds (Counted config) config es) {a : ℕ} {c : Column ι}
    (hc : db.metadata.columns[a]? = some c) (ht : c.type = .text) :
    c.liveDocCount = db.liveIds.countP c.isPresent ∧
      c.totalDocLen = (db.liveIds.map fun i => c.docLen.getD i 0).sum := by
  have hok := (h.metadata.column a c hc).1
  have hstores : ∀ i ∈ db.liveIds, c.Stores (c.cellAt i) ((entryAt es i).row.attr a) := by
    intro i hi
    obtain ⟨e, he, -⟩ := (mem_liveIds h).1 hi
    rw [entryAt_of_getElem he]
    exact hok.stores_at (MetadataStore.col_of_getElem (getElem?_row he) a)
  constructor
  · rw [hok.docCount ht, Column.countP_live _ fun v => !v.isNull, h.liveValues_eq, List.countP_map]
    refine List.countP_congr fun i hi => ?_
    rw [(hstores i hi).isPresent]
    rfl
  · rw [hok.docLen ht, Column.sum_live, h.liveValues_eq, List.map_map]
    refine congrArg List.sum (List.map_congr_left fun i hi => ?_)
    exact ((hstores i hi).text ht).2.2.1.symm

omit [ColumnIndex ι] [LawfulColumnIndex ι] [Distance δ] in
theorem Holds.rows_live (h : db.Holds J config es) :
    es.countP Entry.isLive = db.deleted.count false := by
  rw [h.deleted, List.count, List.countP_map]
  refine List.countP_congr fun e _ => ?_
  simp

/-- A database that holds some entries is intact. -/
theorem Holds.intact (h : db.Holds (Counted config) config es) : db.Intact K where
  ids := h.liveIds
  rows := h.liveCount.trans h.rows_live
  count a code := by
    unfold MetadataStore.count
    cases hc : db.metadata.columns[a]? with
    | some c =>
      rw [MetadataStore.column_of_getElem hc]
      exact h.counted hc code
    | none =>
      -- no column, and no value
      rw [show db.metadata.column a = {} from
        List.getD_eq_default _ _ (List.getElem?_eq_none_iff.1 hc)]
      exact (List.countP_eq_zero.2 fun i _ => Bool.false_ne_true).symm
  texts a ht := by
    unfold MetadataStore.textLiveCount
    cases hc : db.metadata.columns[a]? with
    | some c =>
      rw [MetadataStore.column_of_getElem hc] at ht ⊢
      exact h.texts hc ht
    | none =>
      rw [show db.metadata.column a = {} from
        List.getD_eq_default _ _ (List.getElem?_eq_none_iff.1 hc)] at ht
      cases ht
  pairs a spec ha hi := by
    rw [h.configured] at ha
    exact (h.keyed.follows.has_pairs ha hi).2.2
  answers query k ids ha := h.keyed.answers ha

end Holding

/-! ### Publishing -/

section Publishing

variable {J : ℕ → Column ι → List ColRow → Prop} {e : Entry}

omit [Distance δ] in
theorem insertPublish_returns_iff : (db.insertPublish ext iid).Returns ↔
    (db.metadata.markLive iid).Returns := by
  refine (Outcome.returns_andThen fun _ _ => ?_).trans Outcome.returns_mapState
  trivial

omit [Distance δ] in
theorem updatePublish_returns_iff : (db.updatePublish ext old iid).Returns ↔
    (db.metadata.markLive iid).Returns := by
  refine (Outcome.returns_andThen fun _ db => ?_).trans Outcome.returns_mapState
  -- taking the old row out does not throw
  obtain ⟨m, hm⟩ := db.metadata.markDead_returns old
  dsimp only [VDB.goDead]
  rw [hm]
  trivial

omit [Distance δ] in
/-- What throws is the walk over the columns. -/
theorem insertPublish_throws (h : ¬ (db.insertPublish ext iid).Returns) :
    (db.insertPublish ext iid).state = (db.goLive iid).state :=
  Outcome.andThen_state_of_throws fun hlive =>
    h (insertPublish_returns_iff.2 (Outcome.returns_mapState.1 hlive))

omit [Distance δ] in
theorem updatePublish_throws (h : ¬ (db.updatePublish ext old iid).Returns) :
    (db.updatePublish ext old iid).state = (db.goLive iid).state :=
  Outcome.andThen_state_of_throws fun hlive =>
    h (updatePublish_returns_iff.2 (Outcome.returns_mapState.1 hlive))

variable [LawfulColumnIndex ι]

/-- A row that is made live and goes no further is one too many. -/
theorem Holds.spoiled (h : db.Holds J config es) (hi : es[iid]? = some e)
    (hdead : e.isLive = false) :
    ¬ (db.goLive iid).state.Intact K := by
  intro hintact
  have hrows := hintact.rows
  rw [VDB.goLive, Outcome.state_mapState] at hrows
  change db.liveCount = (db.deleted.set iid false).count false at hrows
  have hget : db.deleted[iid]? = some true := by
    rw [h.deleted, List.getElem?_map, hi, Option.map_some, hdead]
    rfl
  obtain ⟨hlt, hiid⟩ := List.getElem?_eq_some_iff.1 hget
  rw [List.count_set hlt, hiid, h.liveCount, h.rows_live] at hrows
  exact absurd hrows (Nat.succ_ne_self _).symm

/-- The value a call comes to publish in a column. -/
def newValue (db : VDB ι) : Op → ℕ → AttrValue
  | .insert _ rec, a | .insertReserved _ _ rec, a | .update _ _ (some rec), a => rec.attr a
  | .update ext _ none, a => db.metadata.get ((db.extToInt ext).getD 0) a
  | _, _ => attrNull

/-- If the index takes the vector of the call, the indexes of the columns have room for its row. -/
def Harmless (K : Kernels δ) (db : VDB ι) (op : Op) : Prop :=
  ∀ vec ∈ db.added op, (db.index.allocate K db.config.metric vec).Returns →
    db.metadata.HasRoom (db.newValue op) db.intToExt.length

/-- What is known of the columns for their indexes alone. -/
theorem invariant_keyedBy (config : VDBConfig) :
    Column.Invariant False (KeyedBy (ι := ι) config) anyWrite :=
  Column.invariant_keyed (indexedAt config.schema)

/-- An insert that comes to publish its row returns just if there is room for it. -/
theorem Holds.publishes_iff {db₁ : VDB ι} (h : db.Holds (KeyedBy config) config es)
    (hv : db.validate rec = .ok ()) (ha : db.insertAllocate K ext vec rec = .ok iid db₁) :
    ((db₁.link K iid).insertPublish ext iid).Returns ↔
      db.metadata.HasRoom rec.attr db.intToExt.length := by
  obtain ⟨rfl, h₁, -⟩ := h.insertAllocate (invariant_keyedBy config) False.elim ha False.elim
  obtain ⟨_, db₂, halloc, hrest⟩ := Outcome.andThen_ok ha
  obtain ⟨index, -, -, rfl⟩ := allocateNode_ok halloc
  obtain ⟨_, db₃, hrow, hend⟩ := Outcome.andThen_ok hrest
  obtain ⟨m, hm, rfl⟩ := Outcome.mapState_ok hrow
  cases hend
  have hmeta : ∀ d : VDB ι, (d.keepAhead ext).metadata = d.metadata := fun d => by
    unfold VDB.keepAhead
    split_ifs <;> rfl
  have hlen : db.intToExt.length = es.length := by rw [h.ids, List.length_map]
  have hlive := h₁.metadata.markLive_returns_iff (getElem?_row List.getElem?_concat_length)
  have hvalid : Metadata.validate config.schema rec = .ok () := (h.validate rec).symm.trans hv
  rw [insertPublish_returns_iff, hlen]
  refine Iff.trans hlive ?_
  rw [hmeta]
  exact (MetadataStore.hasRoom_appendRow hm).trans (h.metadata.hasRoom_record hvalid)

/-- So does an update. -/
theorem Holds.replaces_iff {db₁ : VDB ι} {rec : Option Record}
    (h : db.Holds (KeyedBy config) config es) (hv : db.validateUpdate rec = .ok ())
    (ha : db.updateAllocate K ext vec rec = .ok (some (old, iid)) db₁) :
    ((db₁.link K iid).updatePublish ext old iid).Returns ↔
      db.metadata.HasRoom (db.newValue (.update ext vec rec)) db.intToExt.length := by
  obtain ⟨hnone, -⟩ | ⟨old', o, hnodes, hold, holive, hoext, h₁, -⟩ :=
    h.updateAllocate (invariant_keyedBy config) False.elim ha False.elim
  · cases hnone
  · cases hnodes
    have hx := (h.map ext old).2 ⟨o, hold, holive, hoext⟩
    have hlen : db.intToExt.length = es.length := by rw [h.ids, List.length_map]
    have hlive := h₁.metadata.markLive_returns_iff (getElem?_row List.getElem?_concat_length)
    unfold VDB.updateAllocate at ha
    rw [hx] at ha
    obtain ⟨_, db₂, halloc, hrest⟩ := Outcome.andThen_ok ha
    obtain ⟨index, -, -, rfl⟩ := allocateNode_ok halloc
    obtain ⟨_, db₃, hrow, hend⟩ := Outcome.andThen_ok hrest
    obtain ⟨m, hm, rfl⟩ := Outcome.mapState_ok hrow
    cases hend
    rw [updatePublish_returns_iff, hlen]
    refine Iff.trans hlive ?_
    cases rec with
    | some rec =>
      have hvalid : Metadata.validate config.schema rec = .ok () := (h.validate rec).symm.trans hv
      exact (MetadataStore.hasRoom_appendRow hm).trans (h.metadata.hasRoom_record hvalid)
    | none =>
      cases hm
      have hcopy := h.metadata.hasRoom_get (i := es.length) (getElem?_row hold)
      have hvalue : db.newValue (.update ext vec none) = db.metadata.get old := by
        funext a
        rw [VDB.newValue, hx]
        rfl
      rw [hvalue]
      exact MetadataStore.hasRoom_appendRowCopy.trans hcopy

/-! ### One call -/

theorem invariant_counted (config : VDBConfig) :
    Column.Invariant True (Counted (ι := ι) config) anyWrite where
  ok _ h := h.1
  append h ht he := ⟨Column.invariant_ok.append (a := 0) h.1 ht he,
    (invariant_keyedBy config).append h.2 ht False.elim⟩
  copy h hi := ⟨Column.invariant_ok.copy (a := 0) h.1 hi, (invariant_keyedBy config).copy h.2 hi⟩
  adjust h hi he := ⟨Column.invariant_ok.adjust (a := 0) h.1 hi he,
    (invariant_keyedBy config).adjust h.2 hi he⟩
  setRow h hi ht hw he hx := ⟨Column.invariant_ok.setRow (a := 0) h.1 hi ht hw he hx,
    (invariant_keyedBy config).setRow h.2 hi ht hw he False.elim⟩
  permute h hn hl he := ⟨Column.invariant_ok.permute (a := 0) h.1 hn hl he,
    (invariant_keyedBy config).permute h.2 hn hl he⟩
  clearRows h :=
    ⟨Column.invariant_ok.clearRows (a := 0) h.1, (invariant_keyedBy config).clearRows h.2⟩

/-- Either the call is harmless and leaves a database that holds some entries, or it is not and
leaves one that is not intact. -/
def Turns (K : Kernels δ) (config : VDBConfig) (db : VDB ι) (op : Op) (db' : VDB ι) : Prop :=
  (db.Harmless K op ∧ ∃ es, db'.Holds (Counted config) config es) ∨
    (¬ db.Harmless K op ∧ ¬ db'.Intact K)

omit [LawfulColumnIndex ι] in
theorem harmless_iff (ha : db.added op = some vec)
    (hreturns : (db.index.allocate K db.config.metric vec).Returns) :
    db.Harmless K op ↔ db.metadata.HasRoom (db.newValue op) db.intToExt.length := by
  unfold Harmless
  rw [ha]
  exact ⟨fun h => h vec rfl hreturns, fun h _ hvec _ => h⟩

theorem turns_insertReserved (h : db.Holds (Counted config) config es) (hb : rec.BoolsOk)
    (hnone : db.extToInt ext = none) (hruns : ¬ (db.insertReserved K ext vec rec).Aborted)
    (hfit : (db.insertReserved K ext vec rec).state.Fits) :
    db.Turns K config (.insertReserved ext vec rec) (db.insertReserved K ext vec rec).state := by
  rcases insertReserved_reaches K db ext vec rec with
    ⟨e, he, hnot⟩ | hab | ⟨hv, hreturns, iid, db₁, ha, heq⟩
  · refine .inl ⟨fun v hadd hret => ?_, ?_⟩
    · dsimp only [VDB.added] at hadd
      cases hv : db.validate rec with
      | error e' =>
        rw [hv] at hadd
        cases hadd
      | ok _ =>
        rw [hv] at hadd
        cases hadd
        exact absurd hret (hnot hv)
    · rw [he]
      exact ⟨es, h⟩
  · exact absurd hab hruns
  · have hadd : db.added (.insertReserved ext vec rec) = some vec := by
      rw [VDB.added, hv]
      rfl
    -- it comes to publish its node, and returns just if the columns have room
    have hroom := (harmless_iff hadd hreturns).trans (h.keyed.publishes_iff hv ha).symm
    rw [heq] at hfit ⊢
    unfold Turns
    rw [hroom]
    cases hpublish : (db₁.link K iid).insertPublish ext iid with
    | ok _ db' =>
      rw [hpublish] at hfit heq
      exact .inl ⟨trivial, (h.insertReserved (invariant_counted config) hb hnone heq hfit).1⟩
    | error e s =>
      refine .inr ⟨id, ?_⟩
      -- a publication that throws has gone live, with some columns still to come
      have hstate : ((db₁.link K iid).insertPublish ext iid).state =
          ((db₁.link K iid).goLive iid).state := insertPublish_throws (by rw [hpublish]; exact id)
      rw [← hpublish, hstate]
      obtain ⟨rfl, h₁, -⟩ := h.keyed.insertAllocate (invariant_keyedBy config) False.elim ha
        False.elim
      have hlast : (es ++ [Entry.mk ext vec (.ofRecord config.schema.length rec)])[es.length]? =
          some _ := List.getElem?_concat_length
      exact (h₁.link (List.getElem?_eq_some_iff.1 hlast).1).spoiled hlast rfl

theorem turns_update {rec : Option Record} (h : db.Holds (Counted config) config es)
    (hb : ∀ r ∈ rec, r.BoolsOk) (hruns : ¬ (db.update K ext vec rec).Aborted)
    (hfit : (db.update K ext vec rec).state.Fits) :
    db.Turns K config (.update ext vec rec) (db.update K ext vec rec).state := by
  have hadded : ∀ v ∈ db.added (.update ext vec rec),
      v = vec ∧ db.validateUpdate rec = .ok () ∧ db.contains ext = true := by
    intro v hadd
    dsimp only [VDB.added] at hadd
    split_ifs at hadd with hcond
    · cases hadd
      refine ⟨rfl, ?_, hcond.2⟩
      cases hv : db.validateUpdate rec with
      | error e =>
        rw [hv] at hcond
        cases hcond.1
      | ok _ => rfl
    · cases hadd
  rcases update_reaches K db ext vec rec with
    ⟨e, he, hnot⟩ | hab | ⟨hnone, he⟩ | ⟨hv, hreturns, old, iid, db₁, ha, heq⟩
  · refine .inl ⟨fun v hadd hret => ?_, ?_⟩
    · obtain ⟨rfl, hv, -⟩ := hadded v hadd
      exact absurd hret (hnot hv)
    · rw [he]
      exact ⟨es, h⟩
  · exact absurd hab hruns
  · refine .inl ⟨fun v hadd _ => ?_, ?_⟩
    · obtain ⟨-, -, hcontains⟩ := hadded v hadd
      rw [VDB.contains, hnone] at hcontains
      cases hcontains
    · rw [he]
      exact ⟨es, h⟩
  · obtain ⟨hnodes, -⟩ | ⟨old', o, hnodes, hold, holive, hoext, h₁, -⟩ :=
      h.keyed.updateAllocate (invariant_keyedBy config) False.elim ha False.elim
    · cases hnodes
    cases hnodes
    have hadd : db.added (.update ext vec rec) = some vec := by
      rw [VDB.added, hv, VDB.contains, (h.map ext old).2 ⟨o, hold, holive, hoext⟩]
      rfl
    -- as for an insert, but that the old row is still live
    have hroom := (harmless_iff hadd hreturns).trans (h.keyed.replaces_iff hv ha).symm
    rw [heq] at hfit ⊢
    unfold Turns
    rw [hroom]
    cases hpublish : (db₁.link K es.length).updatePublish ext old es.length with
    | ok _ db' =>
      rw [hpublish] at hfit heq
      exact .inl ⟨trivial, (h.update (invariant_counted config) hb heq hfit).1⟩
    | error e s =>
      refine .inr ⟨id, ?_⟩
      have hstate : ((db₁.link K es.length).updatePublish ext old es.length).state =
          ((db₁.link K es.length).goLive es.length).state :=
        updatePublish_throws (by rw [hpublish]; exact id)
      rw [hpublish] at hstate
      rw [show ((Outcome.andThen (.error e s) fun _ db =>
        .ok true db : Outcome (VDB ι) Bool)).state = s
        from rfl, show s = _ from hstate]
      have hlast : (es ++ [Entry.mk ext vec (replacement config.schema.length o rec)])[es.length]? =
          some _ := List.getElem?_concat_length
      exact (h₁.link (List.getElem?_eq_some_iff.1 hlast).1).spoiled hlast
        (isLive_replacement config.schema.length o rec)

theorem turns_insert (h : db.Holds (Counted config) config es) (hb : rec.BoolsOk)
    (hnone : db.extToInt db.nextExtId = none) (hruns : ¬ (db.insert K vec rec).Aborted)
    (hfit : (db.insert K vec rec).state.Fits) :
    db.Turns K config (.insert vec rec) (db.insert K vec rec).state := by
  unfold VDB.insert at hruns hfit ⊢
  cases hv : db.validate rec with
  | error e =>
    refine .inl ⟨fun v hadd _ => ?_, es, h⟩
    rw [VDB.added, hv] at hadd
    cases hadd
  | ok _ =>
    rw [hv] at hruns hfit
    have hreserve : db.reserveId.2.Holds (Counted config) config es := { h with }
    have hstate : ((db.reserveId.2.insertReserved K db.reserveId.1 vec rec).andThen
        fun _ db' => .ok db.reserveId.1 db' : Outcome (VDB ι) ExternalId).state =
        (db.reserveId.2.insertReserved K db.reserveId.1 vec rec).state :=
      Outcome.state_andThen_ok _ _
    dsimp only at hruns hfit ⊢
    rw [hstate] at hfit ⊢
    exact turns_insertReserved hreserve hb hnone (fun hab => hruns hab.andThen) hfit

/-- The id a row is inserted under is not live. -/
def Unused (db : VDB ι) : Op → Prop
  | .insert _ _ => db.extToInt db.nextExtId = none
  | .insertReserved ext _ _ => db.extToInt ext = none
  | _ => True

/-- A snapshot fits the widths it is written in, and the indexes have room for it. -/
def Reloads (db : VDB ι) : Op → Prop
  | .reload lsn => db.WordSized lsn ∧ db.Rebuilds
  | _ => True

omit [ColumnIndex ι] [LawfulColumnIndex ι] in
instance decidableUnused (db : VDB ι) : (op : Op) → Decidable (db.Unused op)
  | .insert _ _ => inferInstanceAs (Decidable (db.extToInt db.nextExtId = none))
  | .insertReserved ext _ _ => inferInstanceAs (Decidable (db.extToInt ext = none))
  | .remove _ | .update _ _ _ | .setMetadata _ _ | .compact | .reload _ => .isTrue trivial

omit [LawfulColumnIndex ι] in
instance decidableReloads (db : VDB ι) : (op : Op) → Decidable (db.Reloads op)
  | .reload lsn => inferInstanceAs (Decidable (db.WordSized lsn ∧
      (db.metadata.reread.rebuildDerivedState db.deleted).Returns))
  | .insert _ _ | .insertReserved _ _ _ | .remove _ | .update _ _ _ | .setMetadata _ _ | .compact =>
    .isTrue trivial

/-- What is asked of a call, besides room for its row: no `assert` fails, the Bools are 0 or 1, the
dictionaries fit their codes, and a call that adds no row returns, if its record is valid. -/
structure Permitted (K : Kernels δ) (db : VDB ι) (op : Op) : Prop where
  unused : db.Unused op
  bools : ∀ rec ∈ op.record, rec.BoolsOk
  fits : (db.apply K op).Fits
  runs : ¬ (db.call K op).Aborted
  others : ¬ op.Adds → (db.call K op).Returns ∨ ∃ rec ∈ op.record, (db.validate rec).isOk = false
  reloads : db.Reloads op

/-- A call that adds no row keeps the entries. -/
theorem Permitted.keeps (hp : db.Permitted K op) (hadds : ¬ op.Adds)
    (h : db.Holds (Counted config) config es) :
    ∃ es, (db.apply K op).Holds (Counted config) config es := by
  have hJ := invariant_counted (ι := ι) config
  obtain ⟨-, hbools, hfits, -, hothers, hreloads⟩ := hp
  rcases hothers hadds with hreturns | ⟨rec, hrec, hrejected⟩
  · unfold VDB.apply at hfits ⊢
    cases hc : db.call K op with
    | error e s =>
      rw [hc] at hreturns
      exact hreturns.elim
    | ok r db' =>
      rw [hc] at hfits
      -- one call for each kind that adds no row
      cases op with
      | remove ext =>
        obtain ⟨b, db₁, he, hend⟩ := Outcome.andThen_ok hc
        cases hend
        obtain ⟨-, ⟨-, rfl, -⟩ | ⟨i, -, -, h'⟩⟩ := h.remove hJ he
        · exact ⟨es, h⟩
        · exact ⟨_, h'⟩
      | setMetadata ext rec =>
        obtain ⟨b, db₁, he, hend⟩ := Outcome.andThen_ok hc
        cases hend
        obtain ⟨-, ⟨-, rfl, -⟩ | ⟨i, -, -, h'⟩⟩ := h.setMetadata hJ (fun _ => hbools rec rfl)
          (fun _ _ _ _ _ _ _ => trivial) he fun _ => hfits
        · exact ⟨es, h⟩
        · exact ⟨_, h'⟩
      | compact =>
        obtain ⟨_, db₁, he, hend⟩ := Outcome.andThen_ok hc
        cases hend
        exact ⟨_, (h.compact hJ he).1⟩
      | reload lsn =>
        cases hc
        refine ⟨es, (h.reload (fun _ _ _ hc => hc.1.sized) (fun spec hspec hc => ⟨?_, ?_⟩)
          (fun hc hi he => ⟨?_, ?_⟩) hreloads.1 hreloads.2).1⟩
        · rw [hc.1.reread ⟨rfl, rfl, rfl⟩]
          exact Column.reloads_ok.restored (a := 0) spec hc.1
        · exact keyedBy_reread hspec hc.2
        · exact Column.reloads_ok.rebuildRow (a := 0) hc.1 hi he
        · exact hc.2.rebuildRow hi he
      | insert vec rec => exact absurd trivial hadds
      | insertReserved ext vec rec => exact absurd trivial hadds
      | update ext vec rec => exact absurd trivial hadds
  · -- a rejected record changes nothing
    cases op with
    | setMetadata ext rec' =>
      cases hrec
      cases hv : db.validate rec with
      | ok _ =>
        rw [hv] at hrejected
        cases hrejected
      | error e =>
        have hsame : db.apply K (.setMetadata ext rec) = db := by
          rw [VDB.apply, VDB.call, VDB.setMetadata, hv]
          rfl
        rw [hsame]
        exact ⟨es, h⟩
    | remove ext => cases hrec
    | compact => cases hrec
    | reload lsn => cases hrec
    | insert vec rec => exact absurd trivial hadds
    | insertReserved ext vec rec => exact absurd trivial hadds
    | update ext vec rec => exact absurd trivial hadds

/-- **One call** is harmless, or it spoils the database. -/
theorem Permitted.turns (hp : db.Permitted K op) (h : db.Holds (Counted config) config es) :
    db.Turns K config op (db.apply K op) := by
  have hfits := hp.fits
  have hruns := hp.runs
  cases op with
  | insert vec rec =>
    have hstate : db.apply K (.insert vec rec) = (db.insert K vec rec).state :=
      Outcome.state_andThen_ok _ _
    rw [hstate] at hfits ⊢
    exact turns_insert h (hp.bools rec rfl) hp.unused (fun hab => hruns hab.andThen) hfits
  | insertReserved ext vec rec =>
    have hstate : db.apply K (.insertReserved ext vec rec) =
        (db.insertReserved K ext vec rec).state := Outcome.state_andThen_ok _ fun _ => Reply.done
    rw [hstate] at hfits ⊢
    exact turns_insertReserved h (hp.bools rec rfl) hp.unused (fun hab => hruns hab.andThen) hfits
  | update ext vec rec =>
    have hstate : db.apply K (.update ext vec rec) = (db.update K ext vec rec).state :=
      Outcome.state_andThen_ok _ _
    rw [hstate] at hfits ⊢
    exact turns_update h hp.bools (fun hab => hruns hab.andThen) hfits
  | remove ext => exact .inl ⟨fun v hadd => (by cases hadd), hp.keeps id h⟩
  | setMetadata ext rec => exact .inl ⟨fun v hadd => (by cases hadd), hp.keeps id h⟩
  | compact => exact .inl ⟨fun v hadd => (by cases hadd), hp.keeps id h⟩
  | reload lsn => exact .inl ⟨fun v hadd => (by cases hadd), hp.keeps id h⟩

omit [LawfulColumnIndex ι] in
instance decidableHarmless (K : Kernels δ) (db : VDB ι) (op : Op) : Decidable (db.Harmless K op) :=
  inferInstanceAs (Decidable (∀ vec ∈ db.added op,
    (db.index.allocate K db.config.metric vec).Returns →
      db.metadata.HasRoom (db.newValue op) db.intToExt.length))

omit [LawfulColumnIndex ι] in
instance decidablePermitted (K : Kernels δ) (db : VDB ι) (op : Op) :
    Decidable (db.Permitted K op) :=
  decidable_of_iff (db.Unused op ∧ (∀ rec ∈ op.record, rec.BoolsOk) ∧ (db.apply K op).Fits ∧
      ¬ (db.call K op).Aborted ∧ (¬ op.Adds → (db.call K op).Returns ∨
        ∃ rec ∈ op.record, (db.validate rec).isOk = false) ∧ db.Reloads op)
    ⟨fun ⟨h1, h2, h3, h4, h5, h6⟩ => ⟨h1, h2, h3, h4, h5, h6⟩,
      fun ⟨h1, h2, h3, h4, h5, h6⟩ => ⟨h1, h2, h3, h4, h5, h6⟩⟩

end Publishing

/-! ### Runs -/

section Trees

variable {n : ℕ} {db₀ : VDB (TreeIndex n)}

theorem counted_new (hnew : VDB.new config = .ok db₀) : db₀.Holds (Counted config) config [] := by
  refine holds_new hnew fun a spec ha => ⟨Column.ok_new spec, ?_⟩
  have hindexed : indexedAt config.schema a = spec.indexed := by
    rw [indexedAt, ha]
    rfl
  rw [KeyedBy, hindexed]
  exact Column.keyed_new spec

/-- **Exceptions.**  As long as every call finds room for its row, the database is intact, whatever
is thrown; and the next call leaves it so just if it finds room. -/
theorem intact_run (hnew : VDB.new config = .ok db₀) (ops : List Op)
    (h : Run.Along (apply K) (fun db op => db.Permitted K op ∧ db.Harmless K op) db₀ ops) :
    let db := ops.foldl (apply K) db₀
    db.Intact K ∧ ∀ op, db.Permitted K op → ((db.apply K op).Intact K ↔ db.Harmless K op) := by
  obtain ⟨es, hholds⟩ := Run.Along.invariant
    (I := fun db : VDB (TreeIndex n) => ∃ es, db.Holds (Counted config) config es)
    (fun db op ⟨es, hes⟩ ⟨hp, hharmless⟩ =>
      (hp.turns hes).elim And.right fun hnot => absurd hharmless hnot.1)
    ⟨[], counted_new hnew⟩ h
  refine ⟨hholds.intact, fun op hp => ?_⟩
  rcases hp.turns hholds with ⟨hharmless, es', hes'⟩ | ⟨hnot, hspoiled⟩
  · exact iff_of_true hes'.intact hharmless
  · exact iff_of_false hspoiled hnot

/-- An indexed Int64 attribute, and a tree of one leaf. -/
def oneLeaf : VDB (TreeIndex 1) where
  config := rangedConfig
  index := Index.make rangedConfig
  metadata :=
    { schema := rangedConfig.schema, fingerprint := computeFingerprint rangedConfig.schema,
      rows := 0
      columns := rangedConfig.schema.map Column.new, payload := [] }

theorem new_oneLeaf : VDB.new rangedConfig = Except.ok (ε := Exn) oneLeaf := rfl

/-- An insert of a row with a value. -/
def insertFive : Op := .insert [1] { attrs := [attrInt 5] }

theorem intact_oneLeaf :
    let db := [insertFive, .update 0 [2] none].foldl (apply System.onePlace) oneLeaf
    db.Intact System.onePlace ∧ ∀ op, db.Permitted System.onePlace op →
      ((db.apply System.onePlace op).Intact System.onePlace ↔ db.Harmless System.onePlace op) :=
  intact_run new_oneLeaf _ (by decide +kernel)

/-- The leaf takes 128 pairs.  The insert after that throws when its row has been made live, and a
search finds the row. -/
theorem overfull :
    let db := (List.replicate 128 insertFive).foldl (apply System.onePlace) oneLeaf
    let db' := db.apply System.onePlace insertFive
    ¬ (db.call System.onePlace insertFive).Returns ∧
      ¬ (db.call System.onePlace insertFive).Aborted ∧
      db'.search System.onePlace [1] 129 = .ok (List.range 129) ∧ db'.contains 128 = false ∧
      ¬ db'.Intact System.onePlace := by
  intro db db'
  have hrun : (¬ (db.call System.onePlace insertFive).Returns ∧
      ¬ (db.call System.onePlace insertFive).Aborted) ∧
      (db'.search System.onePlace [1] 129).toOption = some (List.range 129) ∧
      db'.contains 128 = false := by decide +kernel
  obtain ⟨⟨hthrows, hruns⟩, hfound, hcontains⟩ := hrun
  have hsearch : db'.search System.onePlace [1] 129 = .ok (List.range 129) := by
    cases hs : db'.search System.onePlace [1] 129 with
    | error e =>
      rw [hs] at hfound
      cases hfound
    | ok ids =>
      rw [hs] at hfound
      exact congrArg Except.ok (Option.some.inj hfound)
  refine ⟨hthrows, hruns, hsearch, hcontains, fun h => ?_⟩
  have hanswer := h.answers [1] 129 _ (.inl hsearch) 128 (List.mem_range.2 (by decide))
  rw [hcontains] at hanswer
  cases hanswer

end Trees

end VDB

end Database

end Vdb
