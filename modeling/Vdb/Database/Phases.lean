import Vdb.Database.Entries

/-!
# The phases of an operation

What each phase does to the entries of a database, when it returns.  `J` is any invariant of the
metadata columns, and `W` what it asks of an overwritten row.
-/

namespace Vdb

namespace Database

open Metadata

namespace VDB

variable {ι δ : Type} [ColumnIndex ι] [Distance δ] {K : Kernels δ} {E : Prop}
  {J : ℕ → Column ι → List ColRow → Prop} {W : ℕ → AttrValue → AttrValue → Prop}
  {config : VDBConfig} {db db' : VDB ι} {es : List Entry} {e : Entry} {ext x : ExternalId}
  {i iid old : InternalId} {vec : Vec} {rec : Record}

/-! ### Allocating -/

omit [ColumnIndex ι] in
/-- What `allocateNode` leaves. -/
theorem allocateNode_ok (he : db.allocateNode K ext vec = .ok iid db') :
    ∃ index, db.index.allocate K db.config.metric vec = .ok iid index ∧
      iid = db.intToExt.length ∧
      db' = { db with
        index, intToExt := db.intToExt ++ [ext], deleted := db.deleted ++ [true]
        vectors := db.vectors ++ [vec], deletedCount := db.deletedCount + 1 } := by
  unfold allocateNode at he
  cases ha : db.index.allocate K db.config.metric vec with
  | error e index =>
    rw [ha] at he
    cases he
  | ok id index =>
    rw [ha] at he
    dsimp only at he
    split_ifs at he with hid
    cases he
    exact ⟨index, rfl, not_not.1 hid, rfl⟩

omit [ColumnIndex ι] in
/-- A node that is pushed with a metadata row that is not live. -/
theorem Holds.pushed (h : db.Holds J config es) {index : Index} {metadata : MetadataStore ι}
    {row : Row} (ha : db.index.allocate K db.config.metric vec = .ok iid index)
    (hm : metadata.Holds J config.schema (es.map Entry.row ++ [row])) (hrow : row.isLive = false)
    (n : ExternalId) :
    { db with
      index, intToExt := db.intToExt ++ [ext], deleted := db.deleted ++ [true]
      vectors := db.vectors ++ [vec], deletedCount := db.deletedCount + 1
      metadata, nextExtId := n }.Holds J config (es ++ [Entry.mk ext vec row]) := by
  obtain ⟨-, hsize, hkind⟩ := Index.allocate_ok ha
  have hdead : (Entry.mk ext vec row).isLive = false := hrow
  exact
  { configured := h.configured
    kind := hkind.trans h.kind
    sound := (h.sound.allocate ha).1
    size := by simp [hsize, h.size]
    ids := by simp [h.ids]
    deleted := by simp [h.deleted, hdead]
    vectors := by simp [h.vectors]
    metadata := by simpa using hm
    map := fun x i => (h.map x i).trans (lives_append x i hdead).symm
    liveCount := by simp [h.liveCount, hdead]
    deletedCount := by simp [h.deletedCount, hdead] }

theorem isLive_ofRecord (n : ℕ) (rec : Record) : (Row.ofRecord n rec).isLive = false := rfl

theorem Holds.insertAllocate (hJ : Column.Invariant E J W) (h : db.Holds J config es)
    (hb : E → rec.BoolsOk) (he : db.insertAllocate K ext vec rec = .ok iid db')
    (hfit : E → db'.Fits) :
    iid = es.length ∧ db'.Holds J config
      (es ++ [Entry.mk ext vec (.ofRecord config.schema.length rec)]) ∧
      db'.nextExtId = (db.keepAhead ext).nextExtId := by
  unfold VDB.insertAllocate at he
  cases ha : db.allocateNode K ext vec with
  | error e db₁ =>
    rw [ha] at he
    cases he
  | ok id db₁ =>
    rw [ha] at he
    obtain ⟨index, hindex, hid, rfl⟩ := allocateNode_ok ha
    cases hr : db.metadata.appendRow rec with
    | error e m =>
      simp only [Outcome.andThen, hr, Outcome.mapState] at he
      cases he
    | ok _ m =>
      simp only [Outcome.andThen, hr, Outcome.mapState] at he
      cases he
      have hm := h.metadata.appendRow hJ hb hr fun hE => by
        have hfit' := hfit hE
        unfold VDB.keepAhead at hfit'
        split_ifs at hfit' <;> exact hfit'
      refine ⟨by rw [hid, h.ids, List.length_map], ?_, ?_⟩
      · unfold VDB.keepAhead
        split_ifs
        · exact h.pushed hindex hm rfl _
        · exact h.pushed hindex hm rfl db.nextExtId
      · unfold VDB.keepAhead VDB.withMetadata
        split_ifs <;> rfl

/-- The row of a replacement node. -/
def replacement (n : ℕ) (e : Entry) : Option Record → Row
  | some rec => Row.ofRecord n rec
  | none => { e.row with status := .pending }

theorem isLive_replacement (n : ℕ) (e : Entry) (rec : Option Record) :
    (replacement n e rec).isLive = false := by
  cases rec <;> rfl

theorem Holds.appendMetadata (hJ : Column.Invariant E J W) (h : db.Holds J config es)
    {rec : Option Record} (hb : E → ∀ r ∈ rec, r.BoolsOk) (hi : es[old]? = some e)
    {m : MetadataStore ι} (he : db.appendMetadata old rec = .ok () m) (hfit : E → m.Fits) :
    m.Holds J config.schema (es.map Entry.row ++ [replacement config.schema.length e rec]) := by
  cases rec with
  | some rec => exact h.metadata.appendRow hJ (fun hE => hb hE rec rfl) he hfit
  | none =>
    cases he
    exact h.metadata.appendRowCopy hJ (getElem?_row hi)

/-- An update either finds no live row or pushes the replacement of the one it finds. -/
theorem Holds.updateAllocate (hJ : Column.Invariant E J W) (h : db.Holds J config es)
    {rec : Option Record} (hb : E → ∀ r ∈ rec, r.BoolsOk) {nodes : Option (InternalId × InternalId)}
    (he : db.updateAllocate K ext vec rec = .ok nodes db') (hfit : E → db'.Fits) :
    (nodes = none ∧ db' = db ∧ ∀ i, ¬ Lives es ext i) ∨
      ∃ old e, nodes = some (old, es.length) ∧ es[old]? = some e ∧ e.isLive = true ∧ e.ext = ext ∧
        db'.Holds J config (es ++ [Entry.mk ext vec (replacement config.schema.length e rec)]) ∧
        db'.nextExtId = db.nextExtId := by
  unfold VDB.updateAllocate at he
  cases hx : db.extToInt ext with
  | none =>
    rw [hx] at he
    cases he
    refine .inl ⟨rfl, rfl, fun i hi => ?_⟩
    rw [(h.map ext i).2 hi] at hx
    cases hx
  | some old =>
    rw [hx] at he
    obtain ⟨e, hold, hlive, hext⟩ := (h.map ext old).1 hx
    cases ha : db.allocateNode K ext vec with
    | error e db₁ =>
      rw [ha] at he
      cases he
    | ok id db₁ =>
      rw [ha] at he
      obtain ⟨index, hindex, hid, rfl⟩ := allocateNode_ok ha
      -- the row of an update is the record it is given, or a copy of the old row
      cases hr : db.appendMetadata old rec with
      | error e m =>
        have hr' : VDB.appendMetadata { db with
            index, intToExt := db.intToExt ++ [ext], deleted := db.deleted ++ [true]
            vectors := db.vectors ++ [vec], deletedCount := db.deletedCount + 1 } old rec =
            .error e m := by cases rec <;> exact hr
        simp only [Outcome.andThen, hr', Outcome.mapState] at he
        cases he
      | ok _ m =>
        have hr' : VDB.appendMetadata { db with
            index, intToExt := db.intToExt ++ [ext], deleted := db.deleted ++ [true]
            vectors := db.vectors ++ [vec], deletedCount := db.deletedCount + 1 } old rec =
            .ok () m := by cases rec <;> exact hr
        simp only [Outcome.andThen, hr', Outcome.mapState] at he
        cases he
        refine .inr ⟨old, e, by rw [hid, h.ids, List.length_map], hold, hlive, hext, ?_, rfl⟩
        exact h.pushed hindex (h.appendMetadata hJ hb hold hr hfit) (isLive_replacement _ _ _) _

/-! ### Publishing -/

theorem goLive_ok (he : db.goLive iid = .ok () db') : ∃ m, db.metadata.markLive iid = .ok () m ∧
    db' = { db with
      deleted := db.deleted.set iid false, deletedCount := decrement db.deletedCount
      metadata := m } := by
  unfold goLive at he
  cases hm : db.metadata.markLive iid with
  | error e m =>
    simp only [hm, Outcome.mapState] at he
    cases he
  | ok _ m =>
    simp only [hm, Outcome.mapState] at he
    cases he
    exact ⟨m, rfl, rfl⟩

theorem goDead_ok (he : db.goDead iid = .ok () db') : ∃ m, db.metadata.markDead iid = .ok () m ∧
    db' = { db with deleted := db.deleted.set iid true, metadata := m } := by
  unfold goDead at he
  cases hm : db.metadata.markDead iid with
  | error e m =>
    simp only [hm, Outcome.mapState] at he
    cases he
  | ok _ m =>
    simp only [hm, Outcome.mapState] at he
    cases he
    exact ⟨m, rfl, rfl⟩

/-- The metadata after a row has been published, and the row itself. -/
theorem Holds.markLive (hJ : Column.Invariant E J W) (h : db.Holds J config es)
    (hi : es[iid]? = some e) (hlive : e.isLive = false) {m : MetadataStore ι}
    (he : db.metadata.markLive iid = .ok () m) :
    m.Holds J config.schema ((es.modify iid (Entry.withStatus .live)).map Entry.row) := by
  rw [modify_row (g := fun r => { r with status := .live }) fun _ => rfl]
  exact h.metadata.markLive hJ (getElem?_row hi) hlive he

theorem Holds.insertPublish (hJ : Column.Invariant E J W) (h : db.Holds J config es)
    (hi : es[iid]? = some e) (hlive : e.isLive = false) (hext : e.ext = ext)
    (hnone : ∀ i, ¬ Lives es ext i) (he : db.insertPublish ext iid = .ok () db') :
    db'.Holds J config (es.modify iid (Entry.withStatus .live)) ∧ db'.nextExtId = db.nextExtId := by
  unfold VDB.insertPublish at he
  cases hg : db.goLive iid with
  | error e db₁ =>
    rw [hg] at he
    cases he
  | ok _ db₁ =>
    rw [hg] at he
    cases he
    obtain ⟨m, hm, rfl⟩ := goLive_ok hg
    refine ⟨?_, rfl⟩
    exact
    { configured := h.configured
      kind := h.kind
      sound := h.sound
      size := h.size.trans (length_modify _).symm
      ids := h.ids.trans (Eq.symm (map_modify_of_eq Entry.ext fun _ => rfl))
      deleted := by
        rw [map_modify (fun e => !e.isLive) _ hi, ← h.deleted]
        rfl
      vectors := h.vectors.trans (Eq.symm (map_modify_of_eq Entry.vec fun _ => rfl))
      metadata := h.markLive hJ hi hlive hm
      map := fun x i => by
        change Function.update db.extToInt ext (some iid) x = some i ↔ _
        rw [lives_modify hi rfl, Function.update_apply, hext]
        by_cases hx : x = ext
        · subst hx
          rw [if_pos rfl]
          -- its node is the only one that the id names
          by_cases hii : i = iid
          · simp [hii, Entry.isLive, Entry.withStatus, Row.isLive]
          · simp [hii, Ne.symm hii, hnone i]
        · rw [if_neg hx, h.map]
          by_cases hii : i = iid
          · subst hii
            have : ¬ Lives es x i := fun ⟨e', he', hl, _⟩ => by
              rw [hi] at he'
              cases he'
              rw [hlive] at hl
              cases hl
            simp [this, Ne.symm hx]
          · rw [if_neg hii]
      liveCount := by
        have := countP_modify Entry.isLive (Entry.withStatus .live) hi
        rw [hlive, show (Entry.withStatus .live e).isLive = true from rfl] at this
        change db.liveCount + 1 = _
        rw [h.liveCount]
        simpa using this.symm
      deletedCount := by
        have := countP_modify (fun e => !e.isLive) (Entry.withStatus .live) hi
        rw [hlive, show (Entry.withStatus .live e).isLive = true from rfl] at this
        simp only [Bool.not_true, Bool.not_false, Bool.toNat_true, Bool.toNat_false] at this
        exact decrement_eq (h.deletedCount.trans (by omega)) }

/-- Replacing a live row by the pending one with the same id. -/
theorem Holds.updatePublish (hJ : Column.Invariant E J W) (h : db.Holds J config es)
    (hi : es[iid]? = some e) (hlive : e.isLive = false) (hext : e.ext = ext) {o : Entry}
    (hold : es[old]? = some o) (holive : o.isLive = true) (hoext : o.ext = ext)
    (he : db.updatePublish ext old iid = .ok () db') :
    db'.Holds J config
        ((es.modify iid (Entry.withStatus .live)).modify old (Entry.withStatus .dead)) ∧
      db'.nextExtId = db.nextExtId := by
  unfold VDB.updatePublish at he
  cases hg : db.goLive iid with
  | error e db₁ =>
    rw [hg] at he
    cases he
  | ok _ db₁ =>
    rw [hg] at he
    obtain ⟨m, hm, rfl⟩ := goLive_ok hg
    dsimp only [Outcome.andThen] at he
    cases hd : VDB.goDead { db with
        deleted := db.deleted.set iid false, deletedCount := decrement db.deletedCount + 1
        metadata := m } old with
    | error e db₁ =>
      rw [hd] at he
      cases he
    | ok _ db₁ =>
      rw [hd] at he
      cases he
      obtain ⟨m', hm', rfl⟩ := goDead_ok hd
      -- the new node goes live before the old one goes dead
      have hne : iid ≠ old := ne_of_live hi hlive hold holive
      set es₁ := es.modify iid (Entry.withStatus .live) with hes₁
      have hold₁ : es₁[old]? = some o := (getElem?_modify_ne hne).trans hold
      have hmeta₁ := h.markLive hJ hi hlive hm
      have hcount := countP_modify Entry.isLive (Entry.withStatus .live) hi
      have hcount' := countP_modify Entry.isLive (Entry.withStatus .dead) hold₁
      have hdead := countP_modify (fun e => !e.isLive) (Entry.withStatus .live) hi
      have hdead' := countP_modify (fun e => !e.isLive) (Entry.withStatus .dead) hold₁
      rw [hlive, show (Entry.withStatus .live e).isLive = true from rfl, ← hes₁] at hcount hdead
      rw [holive, show (Entry.withStatus .dead o).isLive = false from rfl] at hcount' hdead'
      refine ⟨?_, rfl⟩
      exact
      { configured := h.configured
        kind := h.kind
        sound := h.sound
        size := h.size.trans ((length_modify _).trans (length_modify _)).symm
        ids := h.ids.trans (by simp [hes₁])
        deleted := by
          rw [map_modify (fun e => !e.isLive) _ hold₁, map_modify (fun e => !e.isLive) _ hi,
            ← h.deleted]
          rfl
        vectors := h.vectors.trans (by simp [hes₁])
        metadata := by
          rw [modify_row (g := fun r => { r with status := .dead }) fun _ => rfl]
          exact hmeta₁.markDead hJ (getElem?_row hold₁) holive hm'
        map := fun x i => by
          change Function.update db.extToInt ext (some iid) x = some i ↔ _
          rw [lives_modify hold₁ rfl, lives_modify hi rfl, Function.update_apply, hoext, hext]
          by_cases hx : x = ext
          · subst hx
            have honly : ∀ i, Lives es x i → i = old := fun i hi =>
              h.unique hi ⟨o, hold, holive, hoext⟩
            by_cases hio : i = old
            · subst hio
              simp [hne, Entry.isLive, Entry.withStatus, Row.isLive]
            · by_cases hii : i = iid
              · simp [hii, hne, Entry.isLive, Entry.withStatus, Row.isLive]
              · simp only [if_true, if_neg hio, if_neg hii, Option.some.injEq]
                exact ⟨fun hc => absurd hc.symm hii, fun hc => absurd (honly i hc) hio⟩
          · rw [if_neg hx, h.map]
            -- neither node has another id
            have hnot : ∀ {j : InternalId} {a : Entry}, es[j]? = some a → a.ext = ext →
                ¬ Lives es x j := fun hj ha ⟨a', ha', _, hx'⟩ => by
              rw [hj] at ha'
              cases ha'
              exact hx (hx'.symm.trans ha)
            by_cases hio : i = old
            · subst hio
              simp [hnot hold hoext, Entry.isLive, Entry.withStatus, Row.isLive]
            · rw [if_neg hio]
              by_cases hii : i = iid
              · subst hii
                simp [hnot hi hext, Ne.symm hx]
              · rw [if_neg hii]
        liveCount := by
          change db.liveCount = _
          rw [h.liveCount]
          simp only [Bool.toNat_true, Bool.toNat_false] at hcount hcount'
          omega
        deletedCount := by
          simp only [Bool.not_true, Bool.not_false, Bool.toNat_true,
            Bool.toNat_false] at hdead hdead'
          have hcount₁ : decrement db.deletedCount = es₁.countP fun e => !e.isLive :=
            decrement_eq (h.deletedCount.trans (by omega))
          change decrement db.deletedCount + 1 = _
          omega }

/-! ### Operations of one phase -/

theorem Holds.remove (hJ : Column.Invariant E J W) (h : db.Holds J config es) {b : Bool}
    (he : db.remove ext = .ok b db') :
    db'.nextExtId = db.nextExtId ∧
      ((b = false ∧ db' = db ∧ ∀ i, ¬ Lives es ext i) ∨
        ∃ i, b = true ∧ Lives es ext i ∧
          db'.Holds J config (es.modify i (Entry.withStatus .dead))) := by
  unfold VDB.remove at he
  cases hx : db.extToInt ext with
  | none =>
    rw [hx] at he
    cases he
    refine ⟨rfl, .inl ⟨rfl, rfl, fun i hi => ?_⟩⟩
    rw [(h.map ext i).2 hi] at hx
    cases hx
  | some i =>
    rw [hx] at he
    dsimp only at he
    have hlives := (h.map ext i).1 hx
    obtain ⟨e, hi, hlive, hext⟩ := hlives
    cases hd : db.goDead i with
    | error e db₁ =>
      rw [hd] at he
      cases he
    | ok _ db₁ =>
      rw [hd] at he
      cases he
      obtain ⟨m, hm, rfl⟩ := goDead_ok hd
      have hcount := countP_modify Entry.isLive (Entry.withStatus .dead) hi
      have hdead := countP_modify (fun e => !e.isLive) (Entry.withStatus .dead) hi
      rw [hlive, show (Entry.withStatus .dead e).isLive = false from rfl] at hcount hdead
      refine ⟨rfl, .inr ⟨i, rfl, ⟨e, hi, hlive, hext⟩, ?_⟩⟩
      exact
      { configured := h.configured
        kind := h.kind
        sound := h.sound
        size := h.size.trans (length_modify _).symm
        ids := h.ids.trans (Eq.symm (map_modify_of_eq Entry.ext fun _ => rfl))
        deleted := by
          rw [map_modify (fun e => !e.isLive) _ hi, ← h.deleted]
          rfl
        vectors := h.vectors.trans (Eq.symm (map_modify_of_eq Entry.vec fun _ => rfl))
        metadata := by
          rw [modify_row (g := fun r => { r with status := .dead }) fun _ => rfl]
          exact h.metadata.markDead hJ (getElem?_row hi) hlive hm
        map := fun x j => by
          change Function.update db.extToInt ext none x = some j ↔ _
          rw [lives_modify hi rfl, Function.update_apply]
          by_cases hxe : x = ext
          · subst hxe
            rw [if_pos rfl]
            by_cases hji : j = i
            · simp [hji, Entry.isLive, Entry.withStatus, Row.isLive]
            · rw [if_neg hji]
              exact ⟨by simp, fun hc => absurd (h.unique hc ⟨e, hi, hlive, hext⟩) hji⟩
          -- the other ids name nodes that are not touched
          · rw [if_neg hxe, h.map]
            by_cases hji : j = i
            · subst hji
              have : ¬ Lives es x j := fun ⟨a, ha, _, hx'⟩ => by
                rw [hi] at ha
                cases ha
                exact hxe (hx'.symm.trans hext)
              simp [this, Entry.isLive, Entry.withStatus, Row.isLive]
            · rw [if_neg hji]
        liveCount := by
          simp only [Bool.toNat_true, Bool.toNat_false] at hcount
          exact decrement_eq (h.liveCount.trans (by omega))
        deletedCount := by
          change db.deletedCount + 1 = _
          rw [h.deletedCount]
          simpa using hdead.symm }

theorem Holds.setMetadata (hJ : Column.Invariant E J W) (h : db.Holds J config es)
    (hb : E → rec.BoolsOk)
    (hW : ∀ (i : ℕ) (e : Entry), es[i]? = some e → e.isLive = true → e.ext = ext →
      ∀ a, a < config.schema.length → W a (e.row.attr a) (rec.attr a))
    {b : Bool} (he : db.setMetadata ext rec = .ok b db') (hfit : E → db'.Fits) :
    db'.nextExtId = db.nextExtId ∧
      ((b = false ∧ db' = db ∧ ∀ i, ¬ Lives es ext i) ∨
        ∃ i, b = true ∧ Lives es ext i ∧
          db'.Holds J config (es.modify i (Entry.withRecord config.schema.length rec))) := by
  unfold VDB.setMetadata at he
  cases hv : db.validate rec with
  | error e =>
    rw [hv] at he
    cases he
  | ok _ =>
    rw [hv] at he
    cases hx : db.extToInt ext with
    | none =>
      rw [hx] at he
      cases he
      refine ⟨rfl, .inl ⟨rfl, rfl, fun i hi => ?_⟩⟩
      rw [(h.map ext i).2 hi] at hx
      cases hx
    | some i =>
      rw [hx] at he
      obtain ⟨e, hi, hlive, hext⟩ := (h.map ext i).1 hx
      cases hs : db.metadata.setRow i rec with
      | error e m =>
        simp only [hs, Outcome.mapState, Outcome.andThen] at he
        cases he
      | ok _ m =>
        simp only [hs, Outcome.mapState, Outcome.andThen] at he
        cases he
        have hlive' : ∀ e : Entry, (e.withRecord config.schema.length rec).isLive = e.isLive :=
          fun _ => rfl
        refine ⟨rfl, .inr ⟨i, rfl, ⟨e, hi, hlive, hext⟩, ?_⟩⟩
        exact
        { configured := h.configured
          kind := h.kind
          sound := h.sound
          size := h.size.trans (length_modify _).symm
          ids := h.ids.trans (Eq.symm (map_modify_of_eq Entry.ext fun _ => rfl))
          deleted := h.deleted.trans (Eq.symm (map_modify_of_eq _ fun _ => rfl))
          vectors := h.vectors.trans (Eq.symm (map_modify_of_eq Entry.vec fun _ => rfl))
          metadata := by
            rw [modify_row (g := fun r => { r with
              attrs := Row.attrsOf config.schema.length rec, payload := rec.payload }) fun _ => rfl]
            exact h.metadata.setRow hJ (getElem?_row hi) hlive hb (hW i e hi hlive hext) hs hfit
          map := fun x j => by
            change db.extToInt x = some j ↔ _
            rw [lives_modify hi rfl, h.map]
            by_cases hji : j = i
            · subst hji
              rw [if_pos rfl, hlive']
              constructor
              · rintro ⟨a, ha, hl, hx'⟩
                rw [hi] at ha
                cases ha
                exact ⟨hl, hx'⟩
              · rintro ⟨hl, hx'⟩
                exact ⟨e, hi, hl, hx'⟩
            · rw [if_neg hji]
          liveCount := by
            have := countP_modify Entry.isLive (Entry.withRecord config.schema.length rec) hi
            rw [hlive'] at this
            exact h.liveCount.trans (Nat.add_right_cancel this).symm
          deletedCount := by
            have := countP_modify (fun e => !e.isLive)
              (Entry.withRecord config.schema.length rec) hi
            rw [hlive'] at this
            exact h.deletedCount.trans (Nat.add_right_cancel this).symm }

/-! ### Compaction -/

/-- The entry number `i`, which is there. -/
def entryAt (es : List Entry) (i : InternalId) : Entry := es.getD i ⟨0, [], ⟨.dead, [], []⟩⟩

/-- Numbers of the live entries. -/
def liveNumbers (es : List Entry) : List InternalId :=
  (List.range es.length).filter fun i => (entryAt es i).isLive

omit [ColumnIndex ι] [Distance δ] in
theorem entryAt_of_getElem (hi : es[i]? = some e) : entryAt es i = e :=
  MetadataStore.getD_of_getElem hi _

omit [ColumnIndex ι] [Distance δ] in
theorem mem_liveNumbers : i ∈ liveNumbers es ↔ ∃ e, es[i]? = some e ∧ e.isLive = true := by
  rw [liveNumbers, List.mem_filter, List.mem_range]
  constructor
  · rintro ⟨hlt, hlive⟩
    have hget := List.getElem?_eq_getElem hlt
    exact ⟨_, hget, entryAt_of_getElem hget ▸ hlive⟩
  · rintro ⟨e, hi, hlive⟩
    exact ⟨(List.getElem?_eq_some_iff.1 hi).1, (entryAt_of_getElem hi).symm ▸ hlive⟩

omit [ColumnIndex ι] [Distance δ] in
/-- All entries, in order. -/
theorem map_entryAt (es : List Entry) : (List.range es.length).map (entryAt es) = es := by
  refine List.ext_getElem (by simp) fun i h1 h2 => ?_
  rw [List.getElem_map, List.getElem_range]
  exact entryAt_of_getElem (List.getElem?_eq_getElem h2)

omit [ColumnIndex ι] [Distance δ] in
/-- The live entries, in order. -/
theorem map_liveNumbers (es : List Entry) :
    (liveNumbers es).map (entryAt es) = es.filter Entry.isLive := by
  conv_rhs => rw [← map_entryAt es]
  rw [List.filter_map]
  rfl

omit [ColumnIndex ι] [Distance δ] in
theorem liveIds_eq (hids : db.intToExt = es.map Entry.ext)
    (hdeleted : db.deleted = es.map fun e => !e.isLive) : db.liveIds = liveNumbers es := by
  unfold VDB.liveIds liveNumbers
  rw [hids, List.length_map]
  refine List.filter_congr fun i hi => ?_
  obtain ⟨e, he⟩ : ∃ e, es[i]? = some e := ⟨_, List.getElem?_eq_getElem (List.mem_range.1 hi)⟩
  rw [hdeleted, MetadataStore.getD_of_getElem (x := !e.isLive) (by rw [List.getElem?_map, he]; rfl),
    entryAt_of_getElem he, Bool.not_not]

omit [ColumnIndex ι] [Distance δ] in
theorem liveRows_eq (hids : db.intToExt = es.map Entry.ext)
    (hdeleted : db.deleted = es.map fun e => !e.isLive) (hvectors : db.vectors = es.map Entry.vec) :
    db.liveIds.map (fun i => (db.intToExt.getD i 0, db.vectors.getD i [])) =
      (es.filter Entry.isLive).map fun e => (e.ext, e.vec) := by
  rw [liveIds_eq hids hdeleted, ← map_liveNumbers, List.map_map]
  refine List.map_congr_left fun i hi => ?_
  obtain ⟨e, he, -⟩ := mem_liveNumbers.1 hi
  rw [Function.comp_apply, entryAt_of_getElem he, hids, hvectors,
    MetadataStore.getD_of_getElem (x := e.ext) (by rw [List.getElem?_map, he]; rfl),
    MetadataStore.getD_of_getElem (x := e.vec) (by rw [List.getElem?_map, he]; rfl)]

omit [ColumnIndex ι] [Distance δ] in
theorem liveRows_rows (es : List Entry) :
    MetadataStore.LiveRows (es.map Entry.row) (liveNumbers es) := by
  refine ⟨List.nodup_range.filter _, fun i => ?_⟩
  rw [mem_liveNumbers, List.getElem?_map]
  constructor
  · rintro ⟨e, he, hl⟩
    exact ⟨e.row, by rw [he]; rfl, hl⟩
  · rintro ⟨r, hr, hl⟩
    obtain ⟨e, he, rfl⟩ := Option.map_eq_some_iff.1 hr
    exact ⟨e, he, hl⟩

omit [ColumnIndex ι] [Distance δ] in
theorem keptRows_liveNumbers (es : List Entry) :
    MetadataStore.keptRows (es.map Entry.row) (liveNumbers es) =
      (es.filter Entry.isLive).map Entry.row := by
  rw [← map_liveNumbers, List.map_map, MetadataStore.keptRows]
  refine List.map_congr_left fun i hi => ?_
  obtain ⟨e, he, -⟩ := mem_liveNumbers.1 hi
  rw [Function.comp_apply, entryAt_of_getElem he, MetadataStore.getD_of_getElem (getElem?_row he)]

omit [ColumnIndex ι] in
/-- What appending the live rows one by one leaves. -/
theorem appendAll_ok {rows : List (ExternalId × Vec)} (hsize : db.index.size = db.intToExt.length)
    (hsound : db.index.Sound)
    (hmap : ∀ x i, db.extToInt x = some i ↔ db.intToExt[i]? = some x)
    (hnodup : (db.intToExt ++ rows.map Prod.fst).Nodup)
    (he : appendAll K rows db = .ok () db') :
    ∃ index map, db' = { db with
        index, extToInt := map, intToExt := db.intToExt ++ rows.map Prod.fst
        deleted := db.deleted ++ rows.map fun _ => false
        vectors := db.vectors ++ rows.map Prod.snd } ∧
      index.size = db.intToExt.length + rows.length ∧ index.kind = db.index.kind ∧ index.Sound ∧
      ∀ x i, map x = some i ↔ (db.intToExt ++ rows.map Prod.fst)[i]? = some x := by
  -- by induction on the rows: every one is put behind those that are there
  induction rows generalizing db with
  | nil =>
    obtain rfl : db = db' := by
      cases he
      rfl
    exact ⟨db.index, db.extToInt, by simp, hsize, rfl, hsound, by simpa using hmap⟩
  | cons r rows ih =>
    obtain ⟨ext, vec⟩ := r
    rw [appendAll] at he
    cases ha : db.append K ext vec with
    | error e db₁ =>
      rw [ha] at he
      cases he
    | ok iid db₁ =>
      rw [ha] at he
      unfold VDB.append at ha
      cases hadd : db.index.add K db.config.metric vec with
      | error e index =>
        rw [hadd] at ha
        cases ha
      | ok id index =>
        rw [hadd] at ha
        dsimp only at ha
        split_ifs at ha with hid
        cases ha
        have hid' : id = db.intToExt.length := not_not.1 hid
        obtain ⟨hlt, hsize₁, hkind₁, hsound₁⟩ := Index.add_ok hadd
        have hlen : ((db.withIndex index).pushNode ext vec false).intToExt.length - 1 =
            db.intToExt.length := by simp [VDB.pushNode, VDB.withIndex]
        -- the cast of the id to 32 bits loses nothing, since the index has taken it
        have hiid : (((db.withIndex index).pushNode ext vec false).intToExt.length - 1) % 2 ^ 32 =
            db.intToExt.length := by
          rw [hlen]
          exact Nat.mod_eq_of_lt (hid' ▸ hlt)
        rw [hiid] at he
        have hnotin : ext ∉ db.intToExt := by
          intro hm
          have := List.nodup_append.1 hnodup
          exact this.2.2 ext hm ext (by simp) rfl
        set db₂ : VDB ι := ((db.withIndex index).pushNode ext vec false).mapId ext
          (some db.intToExt.length) with hdb₂
        have hmap₂ : ∀ x i, db₂.extToInt x = some i ↔ db₂.intToExt[i]? = some x := by
          intro x i
          change Function.update db.extToInt ext (some db.intToExt.length) x = some i ↔
            (db.intToExt ++ [ext])[i]? = some x
          rw [Function.update_apply, Tally.getElem?_concat_iff]
          split_ifs with hx
          · subst hx
            have hno : ∀ i, db.intToExt[i]? ≠ some x := fun i hi =>
              hnotin (List.mem_of_getElem? hi)
            simp [hno, eq_comm]
          · rw [hmap]
            exact ⟨.inl, fun hi => hi.resolve_right fun hi => hx hi.2⟩
        have hsize₂ : db₂.index.size = db₂.intToExt.length := by
          simp [hdb₂, VDB.mapId, VDB.pushNode, VDB.withIndex, hsize₁, hsize]
        have hnodup₂ : (db₂.intToExt ++ rows.map Prod.fst).Nodup := by
          simpa [hdb₂, VDB.mapId, VDB.pushNode, VDB.withIndex] using hnodup
        obtain ⟨index', map', rfl, h1, h2, h3, h4⟩ :=
          ih hsize₂ (hsound₁ hsound (hid'.trans hsize.symm)) hmap₂ hnodup₂ he
        have hids : db₂.intToExt = db.intToExt ++ [ext] := rfl
        refine ⟨index', map', ?_, ?_, h2.trans hkind₁, h3, fun x i => ?_⟩
        · simp [hdb₂, VDB.mapId, VDB.pushNode, VDB.withIndex]
        · rw [h1, hids]
          simp
          omega
        · rw [h4, hids, List.append_assoc]
          rfl

omit [ColumnIndex ι] [Distance δ] in
/-- The external ids of the live entries are distinct. -/
theorem Holds.nodup (h : db.Holds J config es) :
    ((es.filter Entry.isLive).map Entry.ext).Nodup := by
  rw [← map_liveNumbers, List.map_map]
  refine (List.nodup_range.filter _).map_on fun i hi j hj hij => ?_
  obtain ⟨a, ha, hla⟩ := mem_liveNumbers.1 hi
  obtain ⟨b, hb, hlb⟩ := mem_liveNumbers.1 hj
  rw [Function.comp_apply, Function.comp_apply, entryAt_of_getElem ha, entryAt_of_getElem hb] at hij
  exact h.unique ⟨a, ha, hla, rfl⟩ ⟨b, hb, hlb, hij.symm⟩

omit [ColumnIndex ι] [Distance δ] in
/-- An IVF index that is not trained has no rows. -/
theorem eq_nil_of_ivf (hkind : db.index.kind = config.kind) (hsound : db.index.Sound)
    (hsize : db.index.size = es.length) (hk : config.kind = .ivf) : es = [] :=
  List.length_eq_zero_iff.1 (hsize.symm.trans (Index.Sound.size_ivf hsound (hkind.trans hk)))

/-- **Compaction** keeps the live entries, in their order, and nothing else. -/
theorem Holds.compact (hJ : Column.Invariant E J W) (h : db.Holds J config es)
    (he : db.compact K = .ok () db') :
    db'.Holds J config (es.filter Entry.isLive) ∧ db'.nextExtId = db.nextExtId := by
  unfold VDB.compact at he
  dsimp only at he
  rw [liveRows_eq h.ids h.deleted h.vectors] at he
  cases hp : db.metadata.permute db.liveIds with
  | error e m =>
    simp only [hp, Outcome.mapState, Outcome.andThen] at he
    cases he
  | ok _ m =>
    simp only [hp, Outcome.mapState, Outcome.andThen] at he
    split_ifs at he with htrain
    -- an IVF index that can hold rows at all has been trained
    · obtain ⟨hk, hne⟩ := htrain
      rw [eq_nil_of_ivf h.kind h.sound h.size (h.configured ▸ hk)] at hne
      exact (hne rfl).elim
    have hnodup := h.nodup
    obtain ⟨index, map, rfl, hsize, hkind, hsound, hmap⟩ := appendAll_ok
      (Index.size_make _).1 (Index.sound_make _) (fun x i => by simp [VDB.clear])
      (by simpa [VDB.clear, Function.comp_def] using hnodup) he
    have hlive : ∀ e ∈ es.filter Entry.isLive, e.isLive = true := fun e he =>
      (List.mem_filter.1 he).2
    refine ⟨?_, rfl⟩
    have hlives := liveIds_eq h.ids h.deleted
    have hm := h.metadata.permute hJ (hlives ▸ liveRows_rows es) hp
    rw [hlives, keptRows_liveNumbers] at hm
    exact
    { configured := h.configured
      kind := by
        change index.kind = _
        rw [hkind, ← h.configured]
        exact (Index.size_make _).2
      sound := hsound
      size := by
        change index.size = _
        rw [hsize]
        simp [VDB.clear]
      ids := by simp [VDB.clear, Function.comp_def]
      deleted := by
        change [] ++ _ = _
        rw [List.nil_append, List.map_map]
        exact List.map_congr_left fun e he => by simp [hlive e he]
      vectors := by simp [VDB.clear, Function.comp_def]
      metadata := hm
      map := fun x i => by
        rw [hmap]
        change ([] ++ _)[i]? = some x ↔ _
        rw [List.nil_append, List.map_map, List.getElem?_map, Option.map_eq_some_iff]
        constructor
        · rintro ⟨e, he, hx⟩
          exact ⟨e, he, hlive e (List.mem_of_getElem? he), hx⟩
        · rintro ⟨e, he, -, hx⟩
          exact ⟨e, he, hx⟩
      liveCount := by
        rw [List.countP_eq_length.2 hlive, ← List.countP_eq_length_filter]
        exact h.liveCount
      deletedCount := by
        change 0 = _
        exact (List.countP_eq_zero.2 fun e he => by simp [hlive e he]).symm }

end VDB

end Database

end Vdb
