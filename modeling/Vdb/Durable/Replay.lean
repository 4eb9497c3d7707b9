import Vdb.Durable.Effects
import Vdb.Database.Refinement
import Vdb.Metadata.Lists

/-!
# The replay of the log

`recover_` applies the records behind the snapshot, one after the other, to the database that it has
loaded.  They come off the log without what their types do not carry.

* `VDB.AtRest` : a database between two calls, each of whose ids it has given out.
* `AtRest.replay` : the replay makes of every point what the records say, and gives out the ids of
  the inserts.
-/

namespace Vdb

open Metadata Database

namespace WalRecord

/-- The id that an insert gives out. -/
def minted (r : WalRecord) : Option ExternalId :=
  match r.type with
  | .insert => some r.extId
  | .update | .setMeta | .delete | .checkpoint | .unknown _ _ => none

theorem attrsOf_carried (n : ℕ) (rec : Record) :
    Row.attrsOf n ⟨rec.attrs.map AttrValue.carried, rec.payload⟩ = Row.attrsOf n rec := by
  unfold Row.attrsOf Record.attr
  refine List.map_congr_left fun a _ => ?_
  simp only [List.getD_eq_getElem?_getD, List.getElem?_map]
  cases rec.attrs[a]? with
  | none => rfl
  | some v => exact v.carried_carried

/-- A record does the same without what its type does not carry. -/
theorem effect_carried (n : ℕ) (r : WalRecord) : r.carried.effect n = r.effect n := by
  obtain ⟨type, lsn, ext, vec, rec⟩ := r
  funext p
  cases type with
  | insert =>
    exact congrArg (fun attrs => some (Point.mk vec attrs rec.payload)) (attrsOf_carried n rec)
  | update =>
    exact congrArg (fun attrs => p.map fun _ => Point.mk vec attrs rec.payload)
      (attrsOf_carried n rec)
  | setMeta =>
    exact congrArg (fun attrs => p.map fun p => Point.mk p.vec attrs rec.payload)
      (attrsOf_carried n rec)
  | _ => rfl

theorem boolsOk_carried {r : WalRecord} (h : r.metadata.BoolsOk) : r.carried.metadata.BoolsOk := by
  unfold carried
  dsimp only
  split_ifs
  · intro v hv hbool
    obtain ⟨u, hu, rfl⟩ := List.mem_map.1 hv
    rw [AttrValue.type_carried] at hbool
    rw [AttrValue.raw_carried (by rw [hbool]; decide) (by rw [hbool]; decide)
      (by rw [hbool]; decide)]
    exact h u hu hbool
  · exact fun v hv => absurd hv List.not_mem_nil

end WalRecord

namespace Metadata

namespace MetadataStore

variable {ι : Type} [ColumnIndex ι] {s s' : MetadataStore ι} {rec : Record} {i : InternalId}

omit [ColumnIndex ι] in
/-- Dictionaries only grow. -/
theorem Fits.of_le (hfit : s'.Fits) (hlen : s'.columns.length = s.columns.length)
    (hle : ∀ (a : ℕ) (c' : Column ι), s'.columns[a]? = some c' →
      ∃ c, s.columns[a]? = some c ∧ c.dict.length ≤ c'.dict.length) : s.Fits := by
  intro c hc
  obtain ⟨a, ha⟩ := List.getElem?_of_mem hc
  have hlt : a < s'.columns.length := hlen.symm ▸ (List.getElem?_eq_some_iff.1 ha).1
  obtain ⟨c₀, h₀, hdict⟩ := hle a _ (List.getElem?_eq_getElem hlt)
  obtain rfl : c₀ = c := Option.some.inj (h₀.symm.trans ha)
  exact hdict.trans (hfit _ (List.getElem_mem hlt))

omit [ColumnIndex ι] in
theorem fits_of_appendRow (he : s.appendRow rec = .ok () s') (hfit : s'.Fits) : s.Fits := by
  unfold appendRow at he
  split at he
  · cases he
  · cases he
    refine hfit.of_le (by simp) fun a c' ha => ?_
    dsimp only at ha
    rw [List.getElem?_map, List.getElem?_mapIdx, Option.map_map, Option.map_eq_some_iff] at ha
    obtain ⟨c, hc, rfl⟩ := ha
    refine ⟨c, hc, ?_⟩
    dsimp only [Function.comp_apply]
    rw [Column.dict_addPosting, Column.appendValue_eq, Column.dict_push]
    exact Column.length_dict_cellOf c _

theorem fits_of_setRow (he : s.setRow i rec = .ok () s') (hfit : s'.Fits) : s.Fits := by
  unfold setRow at he
  split at he
  · cases he
  · obtain ⟨_, s₁, hcolumns, he⟩ := Outcome.andThen_ok he
    cases he
    obtain ⟨cs, hcs, rfl⟩ := Outcome.mapState_ok hcolumns
    obtain ⟨hlen, hall⟩ := forColumns_ok hcs
    refine hfit.of_le hlen fun a c' ha => ?_
    obtain ⟨c, hc, hset⟩ := hall a c' ha
    have hdict := Column.length_dict_setRow c i (rec.attr (0 + a))
    rw [hset] at hdict
    exact ⟨c, hc, hdict⟩

end MetadataStore

end Metadata

namespace Database

namespace VDB

variable {ι δ : Type} [ColumnIndex ι] [Distance δ] {K : Kernels δ} {config : VDBConfig}
  {db db' : VDB ι} {ext : ExternalId} {vec : Vec} {rec : Record}

/-! ### What an operation leaves -/

/-- The ids of the rows behind an insert; the dictionaries have only grown. -/
theorem insertReserved_rows (he : db.insertReserved K ext vec rec = .ok () db') :
    db'.intToExt = db.intToExt ++ [ext] ∧ (db'.Fits → db.Fits) := by
  unfold VDB.insertReserved at he
  split at he
  · cases he
  · obtain ⟨iid, db₁, halloc, he⟩ := Outcome.andThen_ok he
    obtain ⟨id, db₂, hnode, halloc⟩ := Outcome.andThen_ok halloc
    obtain ⟨index, -, -, rfl⟩ := allocateNode_ok hnode
    obtain ⟨_, db₃, hrow, halloc⟩ := Outcome.andThen_ok halloc
    obtain ⟨m, hm, rfl⟩ := Outcome.mapState_ok hrow
    obtain ⟨_, db₄, hlive, he⟩ := Outcome.andThen_ok he
    obtain ⟨m', hm', rfl⟩ := goLive_ok hlive
    cases halloc
    cases he
    unfold VDB.keepAhead at hm' ⊢
    split_ifs at hm' ⊢ <;>
      exact ⟨rfl, fun hfit => MetadataStore.fits_of_appendRow hm (fits_of_adjust hm' hfit)⟩

theorem update_rows {b : Bool} (he : db.update K ext vec (some rec) = .ok b db') :
    (db'.intToExt = db.intToExt ∨
      db.extToInt ext ≠ none ∧ db'.intToExt = db.intToExt ++ [ext]) ∧ (db'.Fits → db.Fits) := by
  unfold VDB.update at he
  split at he
  · cases he
  · obtain ⟨nodes, db₁, halloc, he⟩ := Outcome.andThen_ok he
    unfold VDB.updateAllocate at halloc
    cases hx : db.extToInt ext with
    | none =>
      rw [hx] at halloc
      cases halloc
      cases he
      exact ⟨.inl rfl, id⟩
    | some old =>
      rw [hx] at halloc
      obtain ⟨id, db₂, hnode, halloc⟩ := Outcome.andThen_ok halloc
      obtain ⟨index, -, -, rfl⟩ := allocateNode_ok hnode
      obtain ⟨_, db₃, hrow, halloc⟩ := Outcome.andThen_ok halloc
      obtain ⟨m, hm, rfl⟩ := Outcome.mapState_ok hrow
      cases halloc
      obtain ⟨_, db₄, hpublish, he⟩ := Outcome.andThen_ok he
      cases he
      obtain ⟨_, db₅, hlive, hpublish⟩ := Outcome.andThen_ok hpublish
      obtain ⟨_, db₆, hdead, hpublish⟩ := Outcome.andThen_ok hpublish
      cases hpublish
      obtain ⟨m', hm', rfl⟩ := goLive_ok hlive
      obtain ⟨m'', hm'', rfl⟩ := goDead_ok hdead
      exact ⟨.inr ⟨nofun, rfl⟩, fun hfit => MetadataStore.fits_of_appendRow hm
        (fits_of_adjust hm' (fits_of_adjust hm'' hfit))⟩

omit [Distance δ] in
theorem fits_of_remove {b : Bool} (he : db.remove ext = .ok b db') (hfit : db'.Fits) : db.Fits := by
  unfold VDB.remove at he
  split at he
  · cases he
    exact hfit
  · obtain ⟨_, db₁, hdead, he⟩ := Outcome.andThen_ok he
    obtain ⟨m, hm, rfl⟩ := goDead_ok hdead
    cases he
    exact fits_of_adjust hm hfit

omit [Distance δ] in
theorem fits_of_setMetadata {b : Bool} (he : db.setMetadata ext rec = .ok b db')
    (hfit : db'.Fits) : db.Fits := by
  unfold VDB.setMetadata at he
  split at he
  · cases he
  · split at he
    · cases he
      exact hfit
    · obtain ⟨_, db₁, hset, he⟩ := Outcome.andThen_ok he
      obtain ⟨m, hm, rfl⟩ := Outcome.mapState_ok hset
      cases he
      exact MetadataStore.fits_of_setRow hm hfit

/-! ### Between two calls -/

/-- The rows of the database agree, and the ids of all of them have been given out. -/
structure AtRest (config : VDBConfig) (db : VDB ι) : Prop where
  holds : ∃ es, db.Holds (fun _ c rows => c.Ok rows) config es
  ids : ∀ x ∈ db.intToExt, x < db.nextExtId

omit [ColumnIndex ι] [Distance δ] in
theorem AtRest.inv (h : db.AtRest config) : ∃ es,
    ({ db } : Database.System ι δ).Inv (fun _ c rows => c.Ok rows) config es := by
  obtain ⟨es, hes⟩ := h.holds
  exact ⟨es, hes, nofun, hes.ids ▸ h.ids, nofun⟩

omit [ColumnIndex ι] [Distance δ] in
/-- No row has an id that is still to be given out. -/
theorem AtRest.extToInt_none (h : db.AtRest config) (hx : db.nextExtId ≤ ext) :
    db.extToInt ext = none := by
  obtain ⟨es, hes⟩ := h.holds
  cases hi : db.extToInt ext with
  | none => rfl
  | some i =>
    obtain ⟨e, hget, -, rfl⟩ := (hes.map ext i).1 hi
    have hmem : e.ext ∈ db.intToExt := hes.ids ▸ List.mem_map_of_mem (List.mem_of_getElem? hget)
    exact absurd (h.ids _ hmem) (Nat.not_lt.2 hx)

omit [ColumnIndex ι] [Distance δ] in
theorem AtRest.lt_of_live (h : db.AtRest config) (hx : db.extToInt ext ≠ none) :
    ext < db.nextExtId :=
  Nat.lt_of_not_le fun hle => hx (h.extToInt_none hle)

omit [ColumnIndex ι] [Distance δ] in
theorem AtRest.schema (h : db.AtRest config) : db.metadata.schema = config.schema := by
  obtain ⟨es, hes⟩ := h.holds
  exact hes.metadata.declared

omit [ColumnIndex ι] [Distance δ] in
theorem AtRest.fits (h : db.AtRest config) : db.Fits := by
  obtain ⟨es, hes⟩ := h.holds
  intro c hc
  obtain ⟨a, ha⟩ := List.getElem?_of_mem hc
  exact (hes.metadata.column a c ha).dict.small

omit [Distance δ] in
/-- A new database has no point. -/
theorem atRest_new (hnew : VDB.new config = .ok db) :
    db.AtRest config ∧ db.logical = fun _ => none := by
  have hholds : db.Holds (fun _ c rows => c.Ok rows) config [] :=
    holds_new hnew fun _ spec _ => Column.ok_new spec
  refine ⟨⟨⟨[], hholds⟩, hholds.ids ▸ nofun⟩, funext fun x => ?_⟩
  exact hholds.logical_none fun i ⟨e, he, _⟩ => by cases he

end VDB

end Database

namespace Durable

variable {ι δ : Type} [ColumnIndex ι] [Distance δ] {K : Kernels δ} {config : VDBConfig}
  {db db' : VDB ι} {r : WalRecord} {rs : List WalRecord}

/-- The ids that the inserts of a log give out, from `next` on: each is larger than those before. -/
def Minting (next : ExternalId) (rs : List WalRecord) : Prop :=
  (rs.filterMap WalRecord.minted).Pairwise (· < ·) ∧
    ∀ x ∈ rs.filterMap WalRecord.minted, next ≤ x ∧ x + 1 < 2 ^ 64

/-- The next id behind a record. -/
def nextBehind (next : ExternalId) (r : WalRecord) : ExternalId :=
  match r.minted with
  | some x => x + 1
  | none => next

theorem Minting.cons {next : ExternalId} (h : Minting next (r :: rs)) :
    (∀ x ∈ r.minted, next ≤ x ∧ x + 1 < 2 ^ 64) ∧ next ≤ nextBehind next r ∧
      Minting (nextBehind next r) rs := by
  unfold nextBehind
  obtain ⟨hordered, hall⟩ := h
  cases hr : r.minted with
  | none =>
    rw [List.filterMap_cons_none hr] at hordered hall
    exact ⟨nofun, le_rfl, hordered, hall⟩
  | some x =>
    rw [List.filterMap_cons_some hr] at hordered hall
    obtain ⟨hx, hordered⟩ := List.pairwise_cons.1 hordered
    obtain ⟨hfirst, hall⟩ := List.forall_mem_cons.1 hall
    refine ⟨fun y hy => ?_, Nat.le_succ_of_le hfirst.1, hordered,
      fun y hy => ⟨hx y hy, (hall y hy).2⟩⟩
    obtain rfl := Option.some.inj hy
    exact hfirst

open DurableVDB (applyRecord replayRecord)

theorem fits_of_applyRecord (he : applyRecord K r db = .ok () db') (hfit : db'.Fits) : db.Fits := by
  obtain ⟨type, lsn, ext, vec, rec⟩ := r
  cases type with
  | insert => exact (VDB.insertReserved_rows he).2 hfit
  | delete =>
    obtain ⟨b, db₁, hremove, he⟩ := Outcome.andThen_ok he
    cases he
    exact VDB.fits_of_remove hremove hfit
  | update =>
    obtain ⟨b, db₁, hupdate, he⟩ := Outcome.andThen_ok he
    cases he
    exact (VDB.update_rows hupdate).2 hfit
  | setMeta =>
    obtain ⟨b, db₁, hset, he⟩ := Outcome.andThen_ok he
    cases he
    exact VDB.fits_of_setMetadata hset hfit
  | _ =>
    cases he
    exact hfit

theorem fits_of_applyAll (he : applyAll (applyRecord K) rs db = .ok () db') (hfit : db'.Fits) :
    db.Fits := by
  induction rs generalizing db with
  | nil =>
    cases he
    exact hfit
  | cons r rs ih =>
    obtain ⟨_, db₁, hr, he⟩ := Outcome.andThen_ok he
    exact fits_of_applyRecord hr (ih he)

/-- **One record** is applied. -/
theorem atRest_applyRecord (h : db.AtRest config) (hb : r.metadata.BoolsOk)
    (hid : ∀ x ∈ r.minted, db.nextExtId ≤ x ∧ x + 1 < 2 ^ 64)
    (he : applyRecord K r db = .ok () db') (hfit : db'.Fits) :
    db'.AtRest config ∧ db'.nextExtId = nextBehind db.nextExtId r ∧
      db'.logical =
        replayed WalRecord.key (WalRecord.effect config.schema.length) db.logical [r] := by
  have hJ := Column.invariant_ok (ι := ι)
  obtain ⟨es, hes⟩ := h.holds
  have hone : r.key = some r.extId →
      Function.update db.logical r.extId (r.effect config.schema.length (db.logical r.extId)) =
        replayed WalRecord.key (WalRecord.effect config.schema.length) db.logical [r] :=
    fun hr => (replayed_single hr db.logical).symm
  have hnone : r.key = none → db.logical =
      replayed WalRecord.key (WalRecord.effect config.schema.length) db.logical [r] :=
    fun hr => (replayed_none hr db.logical).symm
  obtain ⟨type, lsn, ext, vec, rec⟩ := r
  -- an operation that adds no row
  have hsame : ∀ {db' : VDB ι} {es' : List Entry},
    db'.Holds (fun _ c rows => c.Ok rows) config es' →
      es'.map Entry.ext = es.map Entry.ext → db'.nextExtId = db.nextExtId → db'.AtRest config := by
    intro db' es' hes' hext hnext
    refine ⟨⟨es', hes'⟩, ?_⟩
    rw [hes'.ids, hext, ← hes.ids, hnext]
    exact h.ids
  cases type with
  | insert =>
    obtain ⟨hle, hlt⟩ := hid ext rfl
    obtain ⟨hrows, -⟩ := VDB.insertReserved_rows he
    obtain ⟨hes', hnext, hlogical⟩ :=
      hes.insertReserved hJ hb (h.extToInt_none hle) he hfit
    have hahead : db'.nextExtId = ext + 1 := by
      rw [hnext, VDB.keepAhead, if_pos hle]
      exact Nat.mod_eq_of_lt hlt
    refine ⟨⟨hes', fun x hx => ?_⟩, hahead, ?_⟩
    · rw [hrows, List.mem_append, List.mem_singleton] at hx
      rw [hahead]
      rcases hx with hx | rfl
      · exact (h.ids x hx).trans_le (Nat.le_succ_of_le hle)
      · exact Nat.lt_succ_self x
    · exact hlogical.trans (hone rfl)
  | delete =>
    obtain ⟨b, db₁, hremove, he⟩ := Outcome.andThen_ok he
    cases he
    obtain ⟨hnext, hcases⟩ := hes.remove hJ hremove
    refine ⟨?_, hnext, ?_⟩
    · rcases hcases with ⟨-, rfl, -⟩ | ⟨i, -, hlives, hes'⟩
      · exact h
      · refine hsame hes' ?_ hnext
        obtain ⟨e, hi, -, -⟩ := hlives
        exact VDB.map_modify_of_eq Entry.ext (fun _ => rfl)
    · exact (hes.remove_logical hJ hremove).trans (hone rfl)
  | update =>
    obtain ⟨b, db₁, hupdate, he⟩ := Outcome.andThen_ok he
    cases he
    have hbools : ∀ q ∈ some rec, q.BoolsOk := by
      rintro q ⟨⟩
      exact hb
    obtain ⟨hes', hnext, -, hlogical⟩ := hes.update hJ hbools hupdate hfit
    refine ⟨⟨hes', fun x hx => ?_⟩, hnext, ?_⟩
    · rw [hnext]
      rcases (VDB.update_rows hupdate).1 with hrows | ⟨hlive, hrows⟩
      · exact h.ids x (hrows ▸ hx)
      · rw [hrows, List.mem_append, List.mem_singleton] at hx
        rcases hx with hx | rfl
        · exact h.ids x hx
        · exact h.lt_of_live hlive
    · exact hlogical.trans (hone rfl)
  | setMeta =>
    obtain ⟨b, db₁, hset, he⟩ := Outcome.andThen_ok he
    cases he
    obtain ⟨hnext, hcases⟩ := hes.setMetadata hJ (fun _ => hb) (fun _ _ _ _ _ _ _ => trivial) hset
      fun _ => hfit
    refine ⟨?_, hnext, ?_⟩
    · rcases hcases with ⟨-, rfl, -⟩ | ⟨i, -, hlives, hes'⟩
      · exact h
      · refine hsame hes' ?_ hnext
        exact VDB.map_modify_of_eq Entry.ext (fun _ => rfl)
    · exact (hes.setMetadata_logical hJ hb hset hfit).trans (hone rfl)
  | checkpoint =>
    cases he
    exact ⟨h, rfl, hnone rfl⟩
  | unknown b hb =>
    cases he
    exact ⟨h, rfl, hnone rfl⟩

/-- **A replay** makes of every point what the records say. -/
theorem atRest_applyAll (h : db.AtRest config) (hb : ∀ r ∈ rs, r.metadata.BoolsOk)
    (hid : Minting db.nextExtId rs) (he : applyAll (applyRecord K) rs db = .ok () db')
    (hfit : db'.Fits) :
    db'.AtRest config ∧ db.nextExtId ≤ db'.nextExtId ∧
      (∀ x ∈ rs.filterMap WalRecord.minted, x < db'.nextExtId) ∧
        db'.logical = replayed WalRecord.key
        (WalRecord.effect config.schema.length) db.logical rs := by
  induction rs generalizing db with
  | nil =>
    cases he
    exact ⟨h, le_rfl, nofun, rfl⟩
  | cons r rs ih =>
    obtain ⟨_, db₁, hr, he⟩ := Outcome.andThen_ok he
    obtain ⟨hbr, hb⟩ := List.forall_mem_cons.1 hb
    obtain ⟨hfirst, hle, hrest⟩ := hid.cons
    obtain ⟨h₁, hnext, hlogical⟩ := atRest_applyRecord h hbr hfirst hr (fits_of_applyAll he hfit)
    rw [← hnext] at hle hrest
    obtain ⟨h', hle', hmem, hlogical'⟩ := ih h₁ hb hrest he
    refine ⟨h', hle.trans hle', fun x hx => ?_, ?_⟩
    · cases hminted : r.minted with
      | none =>
        rw [List.filterMap_cons_none hminted] at hx
        exact hmem x hx
      | some y =>
        rw [List.filterMap_cons_some hminted] at hx
        rcases List.mem_cons.1 hx with rfl | hx
        · refine Nat.lt_of_lt_of_le ?_ hle'
          rw [hnext, nextBehind, hminted]
          exact Nat.lt_succ_self x
        · exact hmem x hx
    · funext x
      rw [hlogical', hlogical, ← replayed_append]
      rfl

/-! ### What comes off the log -/

omit [ColumnIndex ι] [Distance δ] in
theorem minting_carried {next : ExternalId} (h : Minting next rs) :
    Minting next (rs.map WalRecord.carried) := by
  have hminted : (rs.map WalRecord.carried).filterMap WalRecord.minted =
      rs.filterMap WalRecord.minted := by
    rw [List.filterMap_map]
    rfl
  unfold Minting
  rw [hminted]
  exact h

/-- The records of the snapshot are skipped. -/
theorem applyAll_replayRecord (lsn : ℕ) (rs : List WalRecord) (db : VDB ι) :
    applyAll (replayRecord K lsn) (rs.map WalRecord.carried) db =
      applyAll (applyRecord K) ((rs.filter (lsn < ·.lsn)).map WalRecord.carried) db := by
  induction rs generalizing db with
  | nil => rfl
  | cons r rs ih =>
    rw [List.map_cons, applyAll, replayRecord]
    by_cases hlt : lsn < r.lsn
    · rw [List.filter_cons_of_pos (by simpa using hlt), List.map_cons, applyAll,
        if_pos (by exact hlt)]
      cases applyRecord K r.carried db with
      | error e db' => rfl
      | ok _ db' => exact ih db'
    · rw [List.filter_cons_of_neg (by simpa using hlt), if_neg (by exact hlt)]
      exact ih db

/-- **The replay of a log** behind a snapshot. -/
theorem atRest_replay (h : db.AtRest config) {lsn : ℕ} (hb : ∀ r ∈ rs, r.metadata.BoolsOk)
    (hid : Minting db.nextExtId (rs.filter (lsn < ·.lsn)))
    (he : applyAll (replayRecord K lsn) (rs.map WalRecord.carried) db = .ok () db')
    (hfit : db'.Fits) :
    db'.AtRest config ∧ db.nextExtId ≤ db'.nextExtId ∧
      (∀ x ∈ (rs.filter (lsn < ·.lsn)).filterMap WalRecord.minted, x < db'.nextExtId) ∧
        db'.logical = replayed WalRecord.key (WalRecord.effect config.schema.length) db.logical
          (rs.filter (lsn < ·.lsn)) := by
  rw [applyAll_replayRecord] at he
  have hcarried : ∀ r ∈ (rs.filter (lsn < ·.lsn)).map WalRecord.carried, r.metadata.BoolsOk := by
    intro r hr
    obtain ⟨s, hs, rfl⟩ := List.mem_map.1 hr
    exact WalRecord.boolsOk_carried (hb s (List.mem_of_mem_filter hs))
  obtain ⟨h', hle, hmem, hlogical⟩ := atRest_applyAll h hcarried (minting_carried hid) he hfit
  refine ⟨h', hle, fun x hx => hmem x ?_, ?_⟩
  · rw [List.filterMap_map]
    exact hx
  · rw [hlogical, replayed_map (f := WalRecord.carried) (fun _ => rfl) (WalRecord.effect_carried _)]

end Durable

end Vdb
