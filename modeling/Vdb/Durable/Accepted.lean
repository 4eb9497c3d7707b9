import Vdb.Durable.Replay

/-!
# Records that can be replayed

The prefix of a call appends its record as it is.  `apply_` checks it, and so does the replay.

* `WalRecord.Accepted` : the record passes.
* `applyAll_throwsOnly`, `accepted_of_applyAll` : a log is replayed if all its records pass and
  there is room, and only if they pass.
-/

namespace Vdb

open Metadata Database

namespace WalRecord

variable {schema : List AttrSpec} {r : WalRecord}

/-- The checks of `apply_` let the record pass. -/
def Accepted (schema : List AttrSpec) (r : WalRecord) : Prop :=
  match r.type with
  | .insert | .update | .setMeta => Metadata.validate schema r.metadata = .ok ()
  | .delete | .checkpoint | .unknown _ _ => True

instance decidableAccepted (schema : List AttrSpec) : DecidablePred (Accepted schema)
  | ⟨.insert, _, _, _, rec⟩ | ⟨.update, _, _, _, rec⟩ | ⟨.setMeta, _, _, _, rec⟩ =>
    inferInstanceAs (Decidable (Metadata.validate schema rec = .ok ()))
  | ⟨.delete, _, _, _, _⟩ | ⟨.checkpoint, _, _, _, _⟩ | ⟨.unknown _ _, _, _, _, _⟩ =>
    .isTrue trivial

/-- `validate` looks at the types only. -/
theorem validate_carried (schema : List AttrSpec) (rec : Record) :
    Metadata.validate schema ⟨rec.attrs.map AttrValue.carried, rec.payload⟩ =
      Metadata.validate schema rec := by
  have hattrs : ∀ (schema : List AttrSpec) (attrs : List AttrValue),
      validateAttrs schema (attrs.map AttrValue.carried) = validateAttrs schema attrs := by
    intro schema attrs
    induction schema generalizing attrs with
    | nil => cases attrs <;> rfl
    | cons spec schema ih =>
      cases attrs with
      | nil => rfl
      | cons v attrs => simp [validateAttrs, ih]
  unfold Metadata.validate
  simp [hattrs]

/-- What comes off the log passes if and only if it did before. -/
theorem accepted_carried : r.carried.Accepted schema ↔ r.Accepted schema := by
  obtain ⟨type, lsn, ext, vec, rec⟩ := r
  cases type with
  | insert | update | setMeta => exact iff_of_eq (congrArg (· = _) (validate_carried schema rec))
  | delete | checkpoint | unknown => exact Iff.rfl

/-- The call that a replay makes of a record. -/
def op (r : WalRecord) : Option Database.Op :=
  match r.type with
  | .insert => some (.insertReserved r.extId r.vec r.metadata)
  | .update => some (.update r.extId r.vec (some r.metadata))
  | .setMeta => some (.setMetadata r.extId r.metadata)
  | .delete => some (.remove r.extId)
  | .checkpoint | .unknown _ _ => none

end WalRecord

/-! ### What a call leaves of the schema and of the next id -/

namespace Database

namespace VDB

variable {ι δ : Type} [ColumnIndex ι] [Distance δ] {K : Kernels δ} {db db' : VDB ι}
  {ext : ExternalId} {iid old : InternalId} {vec : Vec} {rec : Record}

/-- A database that may come of `db`. -/
structure Later {ι : Type} (db db' : VDB ι) : Prop where
  schema : db'.metadata.schema = db.metadata.schema
  nextExtId : db.nextExtId ≤ db'.nextExtId

/-- A database with the schema and the next id of `db`. -/
structure Alike {ι : Type} (db db' : VDB ι) : Prop where
  schema : db'.metadata.schema = db.metadata.schema
  nextExtId : db'.nextExtId = db.nextExtId

omit [ColumnIndex ι] [Distance δ] in
theorem Later.trans {db'' : VDB ι} (h : db.Later db') (h' : db'.Later db'') : db.Later db'' :=
  ⟨h'.schema.trans h.schema, h.nextExtId.trans h'.nextExtId⟩

omit [ColumnIndex ι] [Distance δ] in
theorem Alike.trans {db'' : VDB ι} (h : db.Alike db') (h' : db'.Alike db'') : db.Alike db'' :=
  ⟨h'.schema.trans h.schema, h'.nextExtId.trans h.nextExtId⟩

omit [ColumnIndex ι] [Distance δ] in
theorem Alike.later (h : db.Alike db') : db.Later db' := ⟨h.schema, h.nextExtId.ge⟩

omit [ColumnIndex ι] [Distance δ] in
/-- A step of a call that goes on from what is later. -/
theorem later_andThen {α β : Type} {o : Outcome (VDB ι) α} {f : α → VDB ι → Outcome (VDB ι) β}
    (h : db.Later o.state) (hf : ∀ a (db₁ : VDB ι), db₁.Later (f a db₁).state) :
    db.Later (o.andThen f).state :=
  Outcome.andThen_state h fun a db₁ h₁ => h₁.trans (hf a db₁)

omit [ColumnIndex ι] [Distance δ] in
theorem alike_andThen {α β : Type} {o : Outcome (VDB ι) α} {f : α → VDB ι → Outcome (VDB ι) β}
    (h : db.Alike o.state) (hf : ∀ a (db₁ : VDB ι), db₁.Alike (f a db₁).state) :
    db.Alike (o.andThen f).state :=
  Outcome.andThen_state h fun a db₁ h₁ => h₁.trans (hf a db₁)

omit [ColumnIndex ι] [Distance δ] in
theorem alike_mapState {α : Type} {o : Outcome (MetadataStore ι) α}
    (h : o.state.schema = db.metadata.schema) : db.Alike (o.mapState db.withMetadata).state := by
  rw [Outcome.state_mapState]
  exact ⟨h, rfl⟩

omit [Distance δ] in
theorem alike_goLive (db : VDB ι) (iid : InternalId) : db.Alike (db.goLive iid).state := by
  have hmark : (db.metadata.markLive iid).state.schema = db.metadata.schema := by
    unfold MetadataStore.markLive
    rw [Outcome.state_mapState]
    rfl
  unfold VDB.goLive
  dsimp only
  rw [Outcome.state_mapState]
  exact ⟨hmark, rfl⟩

omit [Distance δ] in
theorem alike_goDead (db : VDB ι) (iid : InternalId) : db.Alike (db.goDead iid).state := by
  have hmark : (db.metadata.markDead iid).state.schema = db.metadata.schema := by
    unfold MetadataStore.markDead
    rw [Outcome.state_mapState]
    rfl
  unfold VDB.goDead
  dsimp only
  rw [Outcome.state_mapState]
  exact ⟨hmark, rfl⟩

omit [ColumnIndex ι] in
theorem alike_allocateNode (db : VDB ι) (ext : ExternalId) (vec : Vec) :
    db.Alike (db.allocateNode K ext vec).state := by
  unfold allocateNode
  split
  · exact ⟨rfl, rfl⟩
  · split_ifs <;> exact ⟨rfl, rfl⟩

omit [ColumnIndex ι] [Distance δ] in
theorem schema_appendRow (s : MetadataStore ι) (rec : Record) :
    (s.appendRow rec).state.schema = s.schema := by
  unfold MetadataStore.appendRow
  split <;> rfl

omit [ColumnIndex ι] in
theorem later_insertAllocate (db : VDB ι) (hext : ext + 1 < 2 ^ 64) :
    db.Later (db.insertAllocate K ext vec rec).state := by
  refine later_andThen (alike_allocateNode db ext vec).later fun iid db₁ => ?_
  refine later_andThen (alike_mapState (schema_appendRow _ rec)).later fun _ db₂ => ?_
  unfold VDB.keepAhead
  split_ifs with hle
  · refine ⟨rfl, ?_⟩
    dsimp only [Outcome.state]
    rw [Nat.mod_eq_of_lt hext]
    exact Nat.le_succ_of_le hle
  · exact ⟨rfl, le_rfl⟩

omit [ColumnIndex ι] in
/-- An id that has been given out stays behind the next one. -/
theorem alike_insertAllocate (db : VDB ι) (hext : ext < db.nextExtId) :
    db.Alike (db.insertAllocate K ext vec rec).state := by
  have hnode : db.Alike (db.allocateNode K ext vec).state := alike_allocateNode db ext vec
  refine Outcome.andThen_state hnode fun iid db₁ h₁ => ?_
  have hrow := h₁.trans (alike_mapState (schema_appendRow db₁.metadata rec))
  refine Outcome.andThen_state hrow fun _ db₂ h₂ => ?_
  unfold VDB.keepAhead
  rw [if_neg (by rw [h₂.nextExtId]; exact Nat.not_le.2 hext)]
  exact h₂

theorem alike_insertPublish (db : VDB ι) : db.Alike (db.insertPublish ext iid).state :=
  alike_andThen (alike_goLive db iid) fun _ _ => ⟨rfl, rfl⟩

omit [ColumnIndex ι] in
theorem alike_updateAllocate (db : VDB ι) (rec : Option Record) :
    db.Alike (db.updateAllocate K ext vec rec).state := by
  unfold VDB.updateAllocate
  split
  · exact ⟨rfl, rfl⟩
  · refine alike_andThen (alike_allocateNode db ext vec) fun iid db₁ => ?_
    refine alike_andThen (alike_mapState ?_) fun _ _ => ⟨rfl, rfl⟩
    cases rec with
    | none => rfl
    | some rec => exact schema_appendRow _ rec

theorem alike_updatePublish (db : VDB ι) : db.Alike (db.updatePublish ext old iid).state :=
  alike_andThen (alike_goLive db iid) fun _ db₁ => by
    have hdead := alike_goDead { db₁ with deletedCount := db₁.deletedCount + 1 } old
    have hcounted : db₁.Alike { db₁ with deletedCount := db₁.deletedCount + 1 } := ⟨rfl, rfl⟩
    exact hcounted.trans (alike_andThen hdead fun _ _ => ⟨rfl, rfl⟩)

theorem alike_remove (db : VDB ι) : db.Alike (db.remove ext).state := by
  unfold VDB.remove
  split
  · exact ⟨rfl, rfl⟩
  · exact alike_andThen (alike_goDead db _) fun _ _ => ⟨rfl, rfl⟩

theorem alike_setMetadata (db : VDB ι) : db.Alike (db.setMetadata ext rec).state := by
  unfold VDB.setMetadata
  split
  · exact ⟨rfl, rfl⟩
  · split
    · exact ⟨rfl, rfl⟩
    · refine alike_andThen (alike_mapState ?_) fun _ _ => ⟨rfl, rfl⟩
      unfold MetadataStore.setRow
      split
      · rfl
      · refine Outcome.andThen_state (P := fun s : MetadataStore ι => s.schema = db.metadata.schema)
          ?_ fun _ _ hs => hs
        rw [Outcome.state_mapState]
        rfl

theorem later_insertReserved (db : VDB ι) (hext : ext + 1 < 2 ^ 64) :
    db.Later (db.insertReserved K ext vec rec).state := by
  unfold VDB.insertReserved
  split
  · exact ⟨rfl, le_rfl⟩
  · refine later_andThen (later_insertAllocate db hext) fun iid db₁ => ?_
    have hlink : db₁.Later (db₁.link K iid) := ⟨rfl, le_rfl⟩
    exact hlink.trans (alike_insertPublish _).later

theorem alike_update (db : VDB ι) (rec : Option Record) :
    db.Alike (db.update K ext vec rec).state := by
  unfold VDB.update
  split
  · exact ⟨rfl, rfl⟩
  · refine alike_andThen (alike_updateAllocate db rec) fun nodes db₁ => ?_
    cases nodes with
    | none => exact ⟨rfl, rfl⟩
    | some nodes =>
      have hlink : db₁.Alike (db₁.link K nodes.2) := ⟨rfl, rfl⟩
      exact hlink.trans (alike_andThen (alike_updatePublish _) fun _ _ => ⟨rfl, rfl⟩)

end VDB

end Database

namespace Durable

open DurableVDB (applyRecord)

variable {ι δ : Type} [ColumnIndex ι] [Distance δ] {K : Kernels δ} {db db' : VDB ι}
  {r : WalRecord} {rs : List WalRecord}

/-! ### One record -/

/-- A record that is applied passes. -/
theorem accepted_of_applyRecord (he : applyRecord K r db = .ok () db') :
    r.Accepted db.metadata.schema := by
  obtain ⟨type, lsn, ext, vec, rec⟩ := r
  cases type with
  | insert =>
    change db.insertReserved K ext vec rec = .ok () db' at he
    unfold VDB.insertReserved at he
    split at he
    · cases he
    · assumption
  | update =>
    obtain ⟨b, db₁, he, -⟩ := Outcome.andThen_ok he
    change db.update K ext vec (some rec) = .ok b db₁ at he
    unfold VDB.update at he
    split at he
    · cases he
    · assumption
  | setMeta =>
    obtain ⟨b, db₁, he, -⟩ := Outcome.andThen_ok he
    change db.setMetadata ext rec = .ok b db₁ at he
    unfold VDB.setMetadata at he
    split at he
    · cases he
    · assumption
  | delete | checkpoint | unknown => trivial

/-- The replay of a record is a call. -/
theorem applyRecord_eq (r : WalRecord) (db : VDB ι) : applyRecord K r db =
    r.op.elim (.ok () db) fun op => (db.call K op).andThen fun _ db => .ok () db := by
  have hsame : ∀ {α β : Type} (o : Outcome (VDB ι) α) (f : α → β),
      (o.andThen fun _ db => .ok () db) =
        ((o.andThen fun a db => .ok (f a) db).andThen fun _ db =>
          .ok () db : Outcome (VDB ι) Unit) :=
    fun o f => by cases o <;> rfl
  obtain ⟨type, lsn, ext, vec, rec⟩ := r
  cases type with
  | insert =>
    refine Eq.trans ?_ (hsame (db.insertReserved K ext vec rec) fun _ => Reply.done)
    dsimp only [applyRecord]
    cases db.insertReserved K ext vec rec <;> rfl
  | update => exact hsame _ Reply.found
  | setMeta => exact hsame _ Reply.found
  | delete => exact hsame _ Reply.found
  | checkpoint | unknown => rfl

/-- A record that passes throws for lack of room only. -/
theorem applyRecord_throwsOnly [BoundedColumnIndex ι] (h : r.Accepted db.metadata.schema) :
    (applyRecord K r db).ThrowsOnly Exn.OutOfRoom := by
  rw [applyRecord_eq]
  cases hop : r.op with
  | none => trivial
  | some op =>
    refine Outcome.ThrowsOnly.andThen ?_ fun _ _ _ => trivial
    refine (VDB.call_throwsOnly K db op).resolve_left ?_
    rintro ⟨rec, e, hrec, hv, -⟩
    -- the record of the call is the one that has been checked
    obtain ⟨type, lsn, ext, vec, rec'⟩ := r
    cases type with
    | insert | update | setMeta =>
      cases hop
      cases hrec
      cases hv.symm.trans h
    | delete =>
      cases hop
      cases hrec
    | checkpoint | unknown => cases hop

theorem later_applyRecord (db : VDB ι) (hid : ∀ x ∈ r.minted, x + 1 < 2 ^ 64) :
    db.Later (applyRecord K r db).state := by
  obtain ⟨type, lsn, ext, vec, rec⟩ := r
  cases type with
  | insert => exact VDB.later_insertReserved db (hid ext rfl)
  | update => exact VDB.later_andThen (VDB.alike_update db _).later fun _ _ => ⟨rfl, le_rfl⟩
  | setMeta => exact VDB.later_andThen (VDB.alike_setMetadata db).later fun _ _ => ⟨rfl, le_rfl⟩
  | delete => exact VDB.later_andThen (VDB.alike_remove db).later fun _ _ => ⟨rfl, le_rfl⟩
  | checkpoint | unknown => exact ⟨rfl, le_rfl⟩

/-! ### A log -/

/-- **A log that is replayed** has only records that pass. -/
theorem accepted_of_applyAll (hid : ∀ r ∈ rs, ∀ x ∈ r.minted, x + 1 < 2 ^ 64)
    (he : applyAll (applyRecord K) rs db = .ok () db') :
    ∀ r ∈ rs, r.Accepted db.metadata.schema := by
  induction rs generalizing db with
  | nil => nofun
  | cons r rs ih =>
    obtain ⟨hr, hrs⟩ := List.forall_mem_cons.1 hid
    obtain ⟨_, db₁, hone, he⟩ := Outcome.andThen_ok he
    have hlater := later_applyRecord (K := K) db hr
    rw [hone] at hlater
    have hschema : db₁.metadata.schema = db.metadata.schema := hlater.schema
    exact List.forall_mem_cons.2 ⟨accepted_of_applyRecord hone, hschema ▸ ih hrs he⟩

/-- **A log whose records pass** is replayed unless there is no room. -/
theorem applyAll_throwsOnly [BoundedColumnIndex ι] (hid : ∀ r ∈ rs, ∀ x ∈ r.minted, x + 1 < 2 ^ 64)
    (h : ∀ r ∈ rs, r.Accepted db.metadata.schema) :
    (applyAll (applyRecord K) rs db).ThrowsOnly Exn.OutOfRoom := by
  induction rs generalizing db with
  | nil => trivial
  | cons r rs ih =>
    obtain ⟨hr, hrs⟩ := List.forall_mem_cons.1 hid
    obtain ⟨haccepted, h⟩ := List.forall_mem_cons.1 h
    refine (applyRecord_throwsOnly haccepted).andThen fun _ db₁ hone => ih hrs ?_
    have hlater := later_applyRecord (K := K) db hr
    rw [hone] at hlater
    have hschema : db₁.metadata.schema = db.metadata.schema := hlater.schema
    rwa [hschema]

end Durable

end Vdb
