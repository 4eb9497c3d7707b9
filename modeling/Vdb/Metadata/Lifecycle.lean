import Vdb.Metadata.Serialize
import Vdb.Lib.Run

/-!
# The rows of a store

The abstract content of a `MetadataStore` is a list of rows: the attributes and the payload of each,
and whether it is pending, live or dead.  `MetadataStore.Holds J` says that a store holds a list of
rows, every column by `J`; the lemmas say what each operation of the store does to the rows.

`J` is any invariant of single columns that the operations keep (`Column.Invariant`), so a further
fact about columns has to be proved for columns only.
-/

namespace Vdb

namespace Metadata

/-- A row is pending until it is published, and dead once it is tombstoned. -/
inductive RowStatus where
  | pending
  | live
  | dead
  deriving DecidableEq

structure Row where
  status : RowStatus
  attrs : List AttrValue
  payload : Bytes
  deriving DecidableEq

namespace Row

def isLive (r : Row) : Bool := r.status = .live

def attr (r : Row) (a : ℕ) : AttrValue := r.attrs.getD a attrNull

/-- The row as column `a` sees it. -/
def col (a : ℕ) (r : Row) : ColRow := (r.isLive, r.attr a)

/-- The attributes a record gives a row, under a schema of `n` attributes. -/
def attrsOf (n : ℕ) (rec : Record) : List AttrValue :=
  (List.range n).map fun a => (rec.attr a).carried

/-- The row a record is appended as. -/
def ofRecord (n : ℕ) (rec : Record) : Row := ⟨.pending, attrsOf n rec, rec.payload⟩

end Row

/-- The Bool values are those `attr_bool` builds. -/
def Record.BoolsOk (rec : Record) : Prop :=
  ∀ v ∈ rec.attrs, v.type = .bool → v.raw = 0 ∨ v.raw = 1

instance (rec : Record) : Decidable rec.BoolsOk :=
  inferInstanceAs (Decidable (∀ v ∈ rec.attrs, v.type = .bool → v.raw = 0 ∨ v.raw = 1))

theorem Record.BoolsOk.attr {rec : Record} (h : rec.BoolsOk) (a : ℕ)
    (ht : (rec.attr a).type = .bool) : (rec.attr a).raw = 0 ∨ (rec.attr a).raw = 1 := by
  unfold Record.attr at ht ⊢
  rw [List.getD_eq_getElem?_getD] at ht ⊢
  cases ha : rec.attrs[a]? with
  | none => exact .inl rfl
  | some v =>
    rw [ha] at ht
    exact h v (List.mem_of_getElem? ha) ht

/-- A record that passes `validate` has values of the declared types. -/
theorem validate_attr {schema : List AttrSpec} {rec : Record} (h : validate schema rec = .ok ())
    {a : ℕ} {spec : AttrSpec} (ha : schema[a]? = some spec) :
    (rec.attr a).isNull = true ∨ (rec.attr a).type = spec.type := by
  have hloop : ∀ (schema : List AttrSpec) (attrs : List AttrValue) (a : ℕ),
      validateAttrs schema attrs = .ok () → schema[a]? = some spec →
      (attrs.getD a attrNull).isNull = true ∨ (attrs.getD a attrNull).type = spec.type := by
    intro schema
    induction schema with
    | nil => simp
    | cons s schema ih =>
      intro attrs a hv hs
      cases attrs with
      | nil => exact .inl rfl
      | cons v attrs =>
        rw [validateAttrs] at hv
        split_ifs at hv with hok
        cases a with
        | zero =>
          cases hs
          exact hok
        | succ a => exact ih attrs a hv hs
  unfold validate at h
  split_ifs at h with hnil
  · rw [Record.attr, hnil]
    exact .inl rfl
  · exact hloop schema rec.attrs a h ha

/-! ### Invariants of a column -/

variable {ι : Type}

/-- What the operations of the store, in the order the life of a row allows, must keep for `J` to
be an invariant of column `a`.  `W` is what `set_row` asks of the old value and the new one; `E`
says that every value is known to have an exact encoding: Bool values are `0` or `1`, and the
dictionaries fit their codes. -/
structure Column.Invariant [ColumnIndex ι] (E : Prop) (J : ℕ → Column ι → List ColRow → Prop)
    (W : ℕ → AttrValue → AttrValue → Prop) : Prop where
  ok : ∀ {a c rows}, E → J a c rows → c.Ok rows
  append : ∀ {a c rows v}, J a c rows → (v.isNull = true ∨ v.type = c.type) →
    (E → c.Takes v ∧ (c.appendValue v).dict.length ≤ 2 ^ 32) →
    J a ((c.appendValue v).addPosting rows.length) (rows ++ [(false, v.carried)])
  copy : ∀ {a c rows i r}, J a c rows → rows[i]? = some r →
    J a ((c.appendCopy i).addPosting rows.length) (rows ++ [(false, r.2)])
  adjust : ∀ {a c c' rows i b v}, J a c rows → rows[i]? = some (!b, v) →
    c.adjust i b = .ok () c' → J a c' (rows.set i (b, v))
  setRow : ∀ {a c c' rows i w v}, J a c rows → rows[i]? = some (true, w) →
    (v.isNull = true ∨ v.type = c.type) → W a w v → c.setRow i v = .ok () c' →
    (E → c.Takes v ∧ c'.dict.length ≤ 2 ^ 32) → J a c' (rows.set i (true, v.carried))
  permute : ∀ {a c c' rows live}, J a c rows → live.Nodup →
    (∀ i, i ∈ live ↔ ∃ v, rows[i]? = some (true, v)) → c.permute live = .ok () c' →
    J a c' (Column.kept rows live)
  clearRows : ∀ {a c rows}, J a c rows → J a c.clearRows []

/-- What saving a column and loading it again must keep. -/
structure Column.Reloads [ColumnIndex ι] (J : ℕ → Column ι → List ColRow → Prop) : Prop where
  restored : ∀ {a c rows} spec, J a c rows →
    J a (c.restored (Column.new spec)).clearDerived (Column.unpublished rows)
  rebuildRow : ∀ {a c c' rows i v}, J a c rows → rows[i]? = some (false, v) →
    c.rebuildRow i = .ok () c' → J a c' (rows.set i (true, v))

/-- No condition on overwriting a row. -/
def anyWrite : ℕ → AttrValue → AttrValue → Prop := fun _ _ _ => True

theorem Column.invariant_ok [ColumnIndex ι] :
    Column.Invariant (ι := ι) True (fun _ c rows => c.Ok rows) anyWrite where
  ok _ h := h
  append h _ he := h.appendValue (he trivial).1 _ (by
    rw [Column.dict_addPosting]
    exact (he trivial).2)
  copy h hi := h.appendCopy hi _
  adjust h hi he := by
    have := h.adjust hi
    rwa [he] at this
  setRow h hi _ _ he hexact := by
    obtain ⟨hv, hfit⟩ := hexact trivial
    have := h.setRow hi hv (by rwa [he])
    rwa [he] at this
  permute h hn hlive he := by
    have := h.permute hn hlive
    rwa [he] at this
  clearRows h := h.clearRows

theorem Column.reloads_ok [ColumnIndex ι] :
    Column.Reloads (ι := ι) (fun _ c rows => c.Ok rows) where
  restored spec h := by
    have := (h.restored (t := Column.new spec) ⟨rfl, rfl⟩).clearDerived
    rwa [Column.unpublished_unpublished] at this
  rebuildRow h hi he := by
    have := h.rebuildRow hi
    rwa [he] at this

/-! ### Loops over the columns -/

variable {f : ℕ → Column ι → Outcome (Column ι) Unit} {cs cs' : List (Column ι)}

/-- A loop that returns has done each column. -/
theorem forColumns_ok {k : ℕ} (h : forColumns f k cs = .ok () cs') :
    cs'.length = cs.length ∧
      ∀ a c', cs'[a]? = some c' → ∃ c, cs[a]? = some c ∧ f (k + a) c = .ok () c' := by
  induction cs generalizing k cs' with
  | nil =>
    cases h
    exact ⟨rfl, by simp⟩
  | cons c cs ih =>
    rw [forColumns] at h
    cases hc : f k c with
    | error e c' =>
      rw [hc] at h
      cases h
    | ok _ c' =>
      rw [hc] at h
      cases hrest : forColumns f (k + 1) cs with
      | error e cs'' =>
        rw [hrest] at h
        cases h
      | ok _ cs'' =>
        rw [hrest] at h
        cases h
        obtain ⟨hlen, hall⟩ := ih hrest
        refine ⟨congrArg (· + 1) hlen, fun a d hd => ?_⟩
        cases a with
        | zero =>
          cases hd
          exact ⟨c, rfl, hc⟩
        | succ a =>
          obtain ⟨c₀, h₀, hf⟩ := hall a d hd
          exact ⟨c₀, h₀, by rwa [Nat.add_right_comm] at hf⟩

/-- A loop leaves each column as it was or as its round leaves it, whether it throws or not. -/
theorem forColumns_state (f : ℕ → Column ι → Outcome (Column ι) Unit) (k : ℕ)
    (cs : List (Column ι)) :
    (forColumns f k cs).state.length = cs.length ∧
      ∀ (a : ℕ) (c' : Column ι), (forColumns f k cs).state[a]? = some c' →
        ∃ c, cs[a]? = some c ∧ (c' = c ∨ c' = (f (k + a) c).state) := by
  induction cs generalizing k with
  | nil => exact ⟨rfl, by simp [forColumns, Outcome.state]⟩
  | cons c cs ih =>
    rw [forColumns]
    cases hc : f k c with
    | error e c' =>
      refine ⟨rfl, fun a d hd => ?_⟩
      cases a with
      | zero =>
        cases hd
        exact ⟨c, rfl, .inr (by rw [Nat.add_zero, hc]; rfl)⟩
      | succ a => exact ⟨d, hd, .inl rfl⟩
    | ok _ c' =>
      obtain ⟨hlen, hall⟩ := ih (k + 1)
      have hstate : ((forColumns f (k + 1) cs).mapState (c' :: ·)).state =
          c' :: (forColumns f (k + 1) cs).state := by
        cases forColumns f (k + 1) cs <;> rfl
      dsimp only
      rw [hstate]
      refine ⟨congrArg (· + 1) hlen, fun a d hd => ?_⟩
      cases a with
      | zero =>
        cases hd
        exact ⟨c, rfl, .inr (by rw [Nat.add_zero, hc]; rfl)⟩
      | succ a =>
        obtain ⟨c₀, h₀, hf⟩ := hall a d hd
        exact ⟨c₀, h₀, by rwa [Nat.add_right_comm] at hf⟩

/-- A loop throws only what a column throws. -/
theorem forColumns_throwsOnly {P : Exn → Prop} {k : ℕ} (h : ∀ a, ∀ c ∈ cs, (f a c).ThrowsOnly P) :
    (forColumns f k cs).ThrowsOnly P := by
  induction cs generalizing k with
  | nil => trivial
  | cons c cs ih =>
    have hc := h k c List.mem_cons_self
    rw [forColumns]
    cases he : f k c with
    | ok _ c' => exact (ih fun a c hc => h a c (List.mem_cons_of_mem _ hc)).mapState _
    | error e c' =>
      rw [he] at hc
      exact hc

namespace MetadataStore

variable {E : Prop} {J : ℕ → Column ι → List ColRow → Prop} {W : ℕ → AttrValue → AttrValue → Prop}
  {schema : List AttrSpec} {s s' : MetadataStore ι} {rows : List Row} {rec : Record} {r : Row}
  {i a : ℕ}

/-- A store of this schema holds the rows. -/
structure Holds (J : ℕ → Column ι → List ColRow → Prop) (schema : List AttrSpec)
    (s : MetadataStore ι) (rows : List Row) : Prop where
  declared : s.schema = schema
  checked : checkSchema schema = .ok ()
  fingerprint : s.fingerprint = computeFingerprint schema
  columns : s.columns.length = schema.length
  types : ∀ (a : ℕ) (c : Column ι), s.columns[a]? = some c →
    ∃ spec, schema[a]? = some spec ∧ c.type = spec.type
  column : ∀ (a : ℕ) (c : Column ι), s.columns[a]? = some c → J a c (rows.map (Row.col a))
  payload : s.payload = rows.map Row.payload
  rowCount : s.rows = rows.length
  arity : ∀ r ∈ rows, r.attrs.length = schema.length

/-- Every dictionary has at most as many strings as there are codes. -/
def Fits (s : MetadataStore ι) : Prop := ∀ c ∈ s.columns, c.dict.length ≤ 2 ^ 32

instance (s : MetadataStore ι) : Decidable s.Fits :=
  inferInstanceAs (Decidable (∀ c ∈ s.columns, c.dict.length ≤ 2 ^ 32))

/-- What a step must do to every column. -/
theorem Holds.step {J' : ℕ → Column ι → List ColRow → Prop} {rows' : List Row}
    (h : s.Holds J schema rows) (hschema : s'.schema = s.schema)
    (hfp : s'.fingerprint = s.fingerprint) (hlen : s'.columns.length = s.columns.length)
    (hcol : ∀ (a : ℕ) (c' : Column ι), s'.columns[a]? = some c' →
      ∃ c, s.columns[a]? = some c ∧ c'.type = c.type ∧ J' a c' (rows'.map (Row.col a)))
    (hpay : s'.payload = rows'.map Row.payload) (hrows : s'.rows = rows'.length)
    (harity : ∀ r ∈ rows', r.attrs.length = schema.length) : s'.Holds J' schema rows' where
  declared := hschema.trans h.declared
  checked := h.checked
  fingerprint := hfp.trans h.fingerprint
  columns := hlen.trans h.columns
  types a c' hc' := by
    obtain ⟨c, hc, ht, -⟩ := hcol a c' hc'
    obtain ⟨spec, hs, hspec⟩ := h.types a c hc
    exact ⟨spec, hs, ht.trans hspec⟩
  column a c' hc' := by
    obtain ⟨-, -, -, hok⟩ := hcol a c' hc'
    exact hok
  payload := hpay
  rowCount := hrows
  arity := harity

theorem Holds.mono {J' : ℕ → Column ι → List ColRow → Prop} (h : s.Holds J schema rows)
    (hJ : ∀ (a : ℕ) (c : Column ι), s.columns[a]? = some c → J a c (rows.map (Row.col a)) →
      J' a c (rows.map (Row.col a))) : s.Holds J' schema rows :=
  { h with column := fun a c hc => hJ a c hc (h.column a c hc) }

/-- A record that passes `validate` has values of the columns' types. -/
theorem Holds.typed (h : s.Holds J schema rows) (hv : validate schema rec = .ok ()) {c : Column ι}
    (hc : s.columns[a]? = some c) : (rec.attr a).isNull = true ∨ (rec.attr a).type = c.type := by
  obtain ⟨spec, hs, ht⟩ := h.types a c hc
  exact ht ▸ validate_attr hv hs

theorem Holds.lt (h : s.Holds J schema rows) {c : Column ι} (hc : s.columns[a]? = some c) :
    a < schema.length := h.columns ▸ (List.getElem?_eq_some_iff.1 hc).1

theorem attr_attrsOf {n : ℕ} (ha : a < n) : (Row.attrsOf n rec).getD a attrNull =
    (rec.attr a).carried := by
  unfold Row.attrsOf
  rw [List.getD_eq_getElem _ _ (by simpa using ha)]
  simp

theorem map_modify_row {α : Type} (g : Row → α) (upd : Row → Row) (hi : rows[i]? = some r) :
    (rows.modify i upd).map g = (rows.map g).set i (g (upd r)) := by
  refine List.ext_getElem? fun j => ?_
  rw [List.getElem?_map, List.getElem?_modify, List.getElem?_set, List.getElem?_map]
  by_cases hij : i = j
  · subst hij
    obtain ⟨hlt, rfl⟩ := List.getElem?_eq_some_iff.1 hi
    simp [hlt]
  · simp [hij]

theorem arity_modify (h : s.Holds J schema rows) (hi : rows[i]? = some r) {upd : Row → Row}
    (hupd : (upd r).attrs.length = schema.length) :
    ∀ r' ∈ rows.modify i upd, r'.attrs.length = schema.length := by
  intro r' hr
  obtain ⟨j, hj⟩ := List.getElem?_of_mem hr
  rw [List.getElem?_modify] at hj
  by_cases hij : i = j
  · subst hij
    obtain rfl : upd r = r' := by simpa [hi] using hj
    exact hupd
  · have hr' : rows[j]? = some r' := by simpa [hij] using hj
    exact h.arity r' (List.mem_of_getElem? hr')

/-- A loop over the columns that replaces one row. -/
theorem Holds.modify (h : s.Holds J schema rows) {f : ℕ → Column ι → Outcome (Column ι) Unit}
    {cs : List (Column ι)} (he : forColumns f 0 s.columns = .ok () cs) (hi : rows[i]? = some r)
    (upd : Row → Row) (hupd : (upd r).attrs.length = schema.length)
    (hf : ∀ (a : ℕ) (c c' : Column ι), s.columns[a]? = some c → f a c = .ok () c' →
      cs[a]? = some c' → c'.type = c.type ∧
        J a c' ((rows.map (Row.col a)).set i (Row.col a (upd r)))) :
    { s with columns := cs, payload := s.payload.set i (upd r).payload }.Holds J
      schema (rows.modify i upd) := by
  obtain ⟨hlen, hall⟩ := forColumns_ok he
  refine h.step rfl rfl hlen (fun a c' hc' => ?_) ?_ ?_ (arity_modify h hi hupd)
  · obtain ⟨c, hc, hfc⟩ := hall a c' hc'
    rw [Nat.zero_add] at hfc
    obtain ⟨ht, hok⟩ := hf a c c' hc hfc hc'
    refine ⟨c, hc, ht, ?_⟩
    rwa [map_modify_row (Row.col a) upd hi]
  · rw [map_modify_row Row.payload upd hi, ← h.payload]
  · simp [h.rowCount]

theorem col_of_getElem (hi : rows[i]? = some r) (a : ℕ) :
    (rows.map (Row.col a))[i]? = some (r.isLive, r.attr a) := by
  rw [List.getElem?_map, hi]
  rfl

variable [ColumnIndex ι]

theorem holds_new (h : new schema = .ok s)
    (hJ : ∀ a spec, schema[a]? = some spec → J a (Column.new spec) []) : s.Holds J schema [] := by
  unfold new at h
  cases hc : checkSchema schema with
  | error e =>
    rw [hc] at h
    cases h
  | ok _ =>
    rw [hc] at h
    cases h
    refine ⟨rfl, hc, rfl, List.length_map _, fun a c ha => ?_, fun a c ha => ?_, rfl, rfl, by simp⟩
    · obtain ⟨spec, hs, rfl⟩ := Option.map_eq_some_iff.1 ((List.getElem?_map ..).symm.trans ha)
      exact ⟨spec, hs, rfl⟩
    · obtain ⟨spec, hs, rfl⟩ := Option.map_eq_some_iff.1 ((List.getElem?_map ..).symm.trans ha)
      exact hJ a spec hs

theorem Holds.appendRow (hJ : Column.Invariant E J W) (h : s.Holds J schema rows)
    (hb : E → rec.BoolsOk) (he : s.appendRow rec = .ok () s') (hfit : E → s'.Fits) :
    s'.Holds J schema (rows ++ [Row.ofRecord schema.length rec]) := by
  unfold MetadataStore.appendRow at he
  rw [h.declared] at he
  cases hv : validate schema rec with
  | error e =>
    rw [hv] at he
    cases he
  | ok _ =>
    rw [hv] at he
    cases he
    refine h.step h.declared.symm rfl (by simp) (fun a c' hc' => ?_)
      (by simp [h.payload, Row.ofRecord])
      (by simp [h.rowCount]) fun r hr => ?_
    · obtain ⟨c₁, hc₁, rfl⟩ := Option.map_eq_some_iff.1 ((List.getElem?_map ..).symm.trans hc')
      obtain ⟨c, hc, rfl⟩ := Option.map_eq_some_iff.1 ((List.getElem?_mapIdx ..).symm.trans hc₁)
      refine ⟨c, hc, ?_, ?_⟩
      · rw [Column.type_addPosting, Column.type_appendValue]
      · have htyped := h.typed hv hc
        have hok := hJ.append (h.column a c hc) htyped fun hE => by
          have hfit' := hfit hE _ (List.mem_of_getElem? hc')
          rw [Column.dict_addPosting] at hfit'
          exact ⟨⟨htyped, (hb hE).attr a⟩, hfit'⟩
        rw [List.length_map, ← h.rowCount] at hok
        rw [List.map_append, List.map_singleton, Row.col, Row.attr, Row.ofRecord,
          attr_attrsOf (h.lt hc)]
        exact hok
    · rcases List.mem_append.1 hr with hr | hr
      · exact h.arity r hr
      · rw [List.mem_singleton.1 hr]
        simp [Row.ofRecord, Row.attrsOf]

theorem Holds.appendRowCopy (hJ : Column.Invariant E J W) (h : s.Holds J schema rows)
    (hi : rows[i]? = some r) :
    (s.appendRowCopy i).Holds J schema (rows ++ [{ r with status := .pending }]) := by
  unfold MetadataStore.appendRowCopy
  refine h.step rfl rfl (by simp) (fun a c' hc' => ?_) ?_ (by simp [h.rowCount]) fun r' hr => ?_
  · obtain ⟨c₁, hc₁, rfl⟩ := Option.map_eq_some_iff.1 ((List.getElem?_map ..).symm.trans hc')
    obtain ⟨c, hc, rfl⟩ := Option.map_eq_some_iff.1 ((List.getElem?_map ..).symm.trans hc₁)
    refine ⟨c, hc, ?_, ?_⟩
    · rw [Column.type_addPosting, Column.appendCopy_eq, Column.type_push]
    · have hok := hJ.copy (h.column a c hc) (col_of_getElem hi a)
      rw [List.length_map, ← h.rowCount] at hok
      rw [List.map_append]
      exact hok
  · simp [h.payload, hi]
  · rcases List.mem_append.1 hr with hr | hr
    · exact h.arity r' hr
    · rw [List.mem_singleton.1 hr]
      exact h.arity r (List.mem_of_getElem? hi)

/-- The loop of `mark_live` with `true`, of `mark_dead` with `false`. -/
theorem Holds.adjust (hJ : Column.Invariant E J W) (h : s.Holds J schema rows)
    (hi : rows[i]? = some r)
    {b : Bool} (hr : r.isLive = !b) {status : RowStatus} (hs : decide (status = .live) = b)
    (he : (forColumns (fun _ c => c.adjust i b) 0 s.columns).mapState s.withColumns = .ok () s') :
    s'.Holds J schema (rows.modify i fun r => { r with status }) := by
  cases hcs : forColumns (fun _ (c : Column ι) => c.adjust i b) 0 s.columns with
  | error e cs =>
    rw [hcs] at he
    cases he
  | ok _ cs =>
    rw [hcs] at he
    cases he
    have := h.modify hcs hi (fun r => { r with status }) (h.arity r (List.mem_of_getElem? hi))
      fun a c c' hc hf _ => by
        refine ⟨?_, ?_⟩
        · have := Column.type_adjust c i b
          rwa [hf] at this
        · have hcol := hJ.adjust (h.column a c hc) (hr ▸ col_of_getElem hi a) hf
          rwa [show Row.col a { r with status } = (b, r.attr a) from Prod.ext hs rfl]
    have hpay : s.payload.set i r.payload = s.payload := by
      have hp : s.payload[i]? = some r.payload := by rw [h.payload, List.getElem?_map, hi]; rfl
      obtain ⟨hlt, hget⟩ := List.getElem?_eq_some_iff.1 hp
      exact hget ▸ List.set_getElem_self hlt
    rwa [hpay] at this

theorem Holds.markLive (hJ : Column.Invariant E J W) (h : s.Holds J schema rows)
    (hi : rows[i]? = some r)
    (hr : r.isLive = false) (he : s.markLive i = .ok () s') :
    s'.Holds J schema (rows.modify i fun r => { r with status := .live }) :=
  h.adjust hJ hi (b := true) hr rfl he

theorem Holds.markDead (hJ : Column.Invariant E J W) (h : s.Holds J schema rows)
    (hi : rows[i]? = some r)
    (hr : r.isLive = true) (he : s.markDead i = .ok () s') :
    s'.Holds J schema (rows.modify i fun r => { r with status := .dead }) :=
  h.adjust hJ hi (b := false) hr rfl he

theorem Holds.setRow (hJ : Column.Invariant E J W) (h : s.Holds J schema rows)
    (hi : rows[i]? = some r)
    (hr : r.isLive = true) (hb : E → rec.BoolsOk)
    (hW : ∀ a, a < schema.length → W a (r.attr a) (rec.attr a))
    (he : s.setRow i rec = .ok () s') (hfit : E → s'.Fits) :
    s'.Holds J schema (rows.modify i fun r =>
      { r with attrs := Row.attrsOf schema.length rec, payload := rec.payload }) := by
  unfold MetadataStore.setRow at he
  rw [h.declared] at he
  cases hv : validate schema rec with
  | error e =>
    rw [hv] at he
    cases he
  | ok _ =>
    rw [hv] at he
    cases hcs : forColumns (fun a (c : Column ι) => c.setRow i (rec.attr a)) 0 s.columns with
    | error e cs =>
      rw [hcs] at he
      cases he
    | ok _ cs =>
      rw [hcs] at he
      cases he
      refine h.modify hcs hi (fun r =>
        { r with attrs := Row.attrsOf schema.length rec, payload := rec.payload })
        (by simp [Row.attrsOf]) fun a c c' hc hf hc' => ⟨?_, ?_⟩
      · have := Column.type_setRow c i (rec.attr a)
        rwa [hf] at this
      · have htyped := h.typed hv hc
        have hcol := hJ.setRow (h.column a c hc) (hr ▸ col_of_getElem hi a) htyped
          (hW a (h.lt hc)) hf fun hE =>
            ⟨⟨htyped, (hb hE).attr a⟩, hfit hE c' (List.mem_of_getElem? hc')⟩
        rwa [show Row.col a { r with
          attrs := Row.attrsOf schema.length rec, payload := rec.payload } =
            (true, (rec.attr a).carried) from Prod.ext hr (attr_attrsOf (h.lt hc))]

omit [ColumnIndex ι] in
theorem column_of_getElem {c : Column ι} (hc : s.columns[a]? = some c) : s.column a = c := by
  rw [column, List.getD_eq_getElem?_getD, hc]
  rfl

/-- The rows `live` in this order. -/
def keptRows (rows : List Row) (live : List InternalId) : List Row :=
  live.map fun src => rows.getD src ⟨.dead, [], []⟩

/-- The ids are those of the live rows. -/
def LiveRows (rows : List Row) (live : List InternalId) : Prop :=
  live.Nodup ∧ ∀ i, i ∈ live ↔ ∃ r, rows[i]? = some r ∧ r.isLive = true

instance (rows : List Row) (live : List InternalId) : Decidable (LiveRows rows live) :=
  decidable_of_iff (live.Nodup ∧ (∀ i ∈ live, ∃ r ∈ rows[i]?, r.isLive = true) ∧
      ∀ i < rows.length, (∃ r ∈ rows[i]?, r.isLive = true) → i ∈ live) <| by
    refine and_congr_right fun _ => ⟨fun h i => ⟨h.1 i, fun ⟨r, hr, hl⟩ => ?_⟩, fun h => ?_⟩
    · exact h.2 i (List.getElem?_eq_some_iff.1 hr).1 ⟨r, hr, hl⟩
    · exact ⟨fun i => (h i).1, fun i _ => (h i).2⟩

theorem getD_of_getElem {α : Type} {l : List α} {x : α} (h : l[i]? = some x) (d : α) :
    l.getD i d = x := by
  rw [List.getD_eq_getElem?_getD, h]
  rfl

theorem Holds.permute (hJ : Column.Invariant E J W) (h : s.Holds J schema rows)
    {live : List InternalId}
    (hlive : LiveRows rows live) (he : s.permute live = .ok () s') :
    s'.Holds J schema (keptRows rows live) := by
  unfold MetadataStore.permute at he
  cases hcs : forColumns (fun _ (c : Column ι) => c.permute live) 0 s.columns with
  | error e cs =>
    rw [hcs] at he
    cases he
  | ok _ cs =>
    rw [hcs] at he
    cases he
    obtain ⟨hlen, hall⟩ := forColumns_ok hcs
    refine h.step rfl rfl hlen (fun a c' hc' => ?_) ?_ (by simp [keptRows]) fun r hr => ?_
    · obtain ⟨c, hc, hf⟩ := hall a c' hc'
      refine ⟨c, hc, ?_, ?_⟩
      · have := Column.type_permute c live
        rwa [hf] at this
      · have hcol := hJ.permute (h.column a c hc) hlive.1 (fun i => ?_) hf
        · convert hcol using 1
          rw [keptRows, Column.kept, List.map_map]
          refine List.map_congr_left fun src hsrc => ?_
          obtain ⟨r, hr, -⟩ := (hlive.2 src).1 hsrc
          rw [Function.comp_apply, getD_of_getElem hr, getD_of_getElem (col_of_getElem hr a)]
          rfl
        · rw [hlive.2 i, List.getElem?_map]
          constructor
          · rintro ⟨r, hr, hl⟩
            exact ⟨r.attr a, by rw [hr, ← hl]; rfl⟩
          · rintro ⟨v, hv⟩
            obtain ⟨r, hr, hcol⟩ := Option.map_eq_some_iff.1 hv
            exact ⟨r, hr, congrArg Prod.fst hcol⟩
    · rw [keptRows, List.map_map]
      refine List.map_congr_left fun src hsrc => ?_
      obtain ⟨r, hr, -⟩ := (hlive.2 src).1 hsrc
      rw [Function.comp_apply, getD_of_getElem hr]
      change s.payload.getD src [] = _
      rw [h.payload]
      exact getD_of_getElem (by rw [List.getElem?_map, hr]; rfl) []
    · obtain ⟨src, hsrc, rfl⟩ := List.mem_map.1 hr
      obtain ⟨r, hr, -⟩ := (hlive.2 src).1 hsrc
      rw [getD_of_getElem hr]
      exact h.arity r (List.mem_of_getElem? hr)

theorem Holds.clearRows (hJ : Column.Invariant E J W) (h : s.Holds J schema rows) :
    s.clearRows.Holds J schema [] := by
  refine h.step rfl rfl (List.length_map _) (fun a c' hc' => ?_) rfl rfl (by simp)
  obtain ⟨c, hc, rfl⟩ := Option.map_eq_some_iff.1 ((List.getElem?_map ..).symm.trans hc')
  exact ⟨c, hc, Column.type_clearRows c, hJ.clearRows (h.column a c hc)⟩

/-! ### Saving and loading -/

/-- The sizes of the containers are 64-bit numbers. -/
structure SizesFit (s : MetadataStore ι) : Prop where
  rows : s.rows < 2 ^ 64
  columns : s.columns.length < 2 ^ 64
  column : ∀ c ∈ s.columns, c.SizesFit
  payload : s.payload.length < 2 ^ 64
  payloads : ∀ p ∈ s.payload, p.length < 2 ^ 64

instance (s : MetadataStore ι) : Decidable s.SizesFit :=
  decidable_of_iff (s.rows < 2 ^ 64 ∧ s.columns.length < 2 ^ 64 ∧ (∀ c ∈ s.columns, c.SizesFit) ∧
      s.payload.length < 2 ^ 64 ∧ ∀ p ∈ s.payload, p.length < 2 ^ 64)
    ⟨fun h => ⟨h.1, h.2.1, h.2.2.1, h.2.2.2.1, h.2.2.2.2⟩,
      fun h => ⟨h.rows, h.columns, h.column, h.payload, h.payloads⟩⟩

/-- What a store with the columns `ts` reads back of the columns `cs`. -/
def restoredColumns (cs ts : List (Column ι)) : List (Column ι) :=
  List.zipWith Column.restored cs ts

omit [ColumnIndex ι] in
theorem reads_columns {cs ts : List (Column ι)} (hlen : cs.length = ts.length)
    (hsized : ∀ c ∈ cs, ∃ n, c.Sized n) (hfit : ∀ c ∈ cs, c.SizesFit)
    (hdict : ∀ c ∈ cs, c.dict.length < 2 ^ 64) :
    (Column.deserializeAll ts).Reads (cs.flatMap Column.serialize)
      (List.zipWith Column.reread cs ts) := by
  induction cs generalizing ts with
  | nil =>
    rw [List.length_eq_zero_iff.1 hlen.symm]
    exact Reader.reads_pure []
  | cons c cs ih =>
    cases ts with
    | nil => cases hlen
    | cons t ts =>
      obtain ⟨n, hc⟩ := hsized c List.mem_cons_self
      rw [Column.deserializeAll, List.flatMap_cons]
      refine (hc.reads (hfit c List.mem_cons_self) (hdict c List.mem_cons_self)).bind ?_
      rw [← List.append_nil (cs.flatMap Column.serialize)]
      refine (ih (Nat.succ.inj hlen) (fun c hc => hsized c (List.mem_cons_of_mem _ hc))
        (fun c hc => hfit c (List.mem_cons_of_mem _ hc))
        (fun c hc => hdict c (List.mem_cons_of_mem _ hc))).bind ?_
      exact Reader.reads_pure _

/-- What a store of the same schema reads from the bytes of this one. -/
def reread (s : MetadataStore ι) : MetadataStore ι :=
  { s with columns := List.zipWith Column.reread s.columns (s.schema.map Column.new) }

/-- A store of this schema, the arrays of each of its columns agreeing on how many rows there are.
-/
structure Regular (schema : List AttrSpec) (s : MetadataStore ι) : Prop where
  declared : s.schema = schema
  fingerprint : s.fingerprint = computeFingerprint schema
  columns : s.columns.length = schema.length
  sized : ∀ c ∈ s.columns, ∃ n, c.Sized n

/-- A store of the same schema reads back what was written, whatever it holds. -/
theorem Regular.rereads {t : MetadataStore ι} (h : s.Regular schema) (hfit : s.SizesFit)
    (hdict : ∀ c ∈ s.columns, c.dict.length < 2 ^ 64) (ht : new schema = .ok t) :
    t.deserialize.Reads s.serialize s.reread := by
  unfold new at ht
  split at ht
  · cases ht
  cases ht
  unfold MetadataStore.deserialize MetadataStore.serialize getNumber
  rw [h.fingerprint]
  refine (Reader.reads_nat truncated (UInt64.toNat_lt _)).bind ?_
  dsimp only
  rw [if_neg (by simp)]
  refine Reader.Reads.bind (Reader.reads_nat truncated hfit.rows)
    (Reader.Reads.bind (Reader.reads_nat truncated hfit.columns) ?_)
  rw [List.length_map, ← h.columns, if_neg (by simp)]
  refine (reads_columns (by simp [h.columns]) h.sized hfit.column hdict).bind
    (Reader.Reads.bind (Reader.reads_nat truncated hfit.payload) ?_)
  rw [← List.append_nil (s.payload.flatMap putBytes)]
  refine (reads_manyBytes hfit.payloads).bind ?_
  unfold MetadataStore.reread
  rw [← h.fingerprint, ← h.declared]
  exact Reader.reads_pure _

omit [ColumnIndex ι] in
theorem Holds.regular (hsized : ∀ a c rows, J a c rows → c.Sized rows.length)
    (h : s.Holds J schema rows) : s.Regular schema where
  declared := h.declared
  fingerprint := h.fingerprint
  columns := h.columns
  sized c hc := by
    obtain ⟨a, ha⟩ := List.getElem?_of_mem hc
    exact ⟨_, hsized _ _ _ (h.column a c ha)⟩

theorem Holds.rereads {t : MetadataStore ι} (hsized : ∀ a c rows, J a c rows → c.Sized rows.length)
    (h : s.Holds J schema rows) (hfit : s.SizesFit)
    (hdict : ∀ c ∈ s.columns, c.dict.length < 2 ^ 64)
    (ht : new schema = .ok t) : t.deserialize.Reads s.serialize s.reread :=
  (h.regular hsized).rereads hfit hdict ht

/-- What is read back where the values have an exact encoding. -/
theorem Holds.reread_eq (hok : ∀ a c rows, J a c rows → c.Ok rows) (h : s.Holds J schema rows) :
    s.reread = { s with columns := restoredColumns s.columns (schema.map Column.new) } := by
  unfold MetadataStore.reread restoredColumns
  rw [h.declared, List.zipWith_map_right, List.zipWith_map_right]
  congr 1
  refine List.ext_getElem (by simp) fun i h1 h2 => ?_
  rw [List.getElem_zipWith, List.getElem_zipWith]
  have hi : i < s.columns.length := (List.length_zipWith ▸ h1).trans_le (min_le_left _ _)
  exact (hok _ _ _ (h.column i _ (List.getElem?_eq_getElem hi))).reread ⟨rfl, rfl, rfl⟩

/-- A store of the same schema reads back what was written. -/
theorem Holds.reads {t : MetadataStore ι} (hok : ∀ a c rows, J a c rows → c.Ok rows)
    (h : s.Holds J schema rows)
    (hfit : s.SizesFit) (ht : new schema = .ok t) :
    t.deserialize.Reads s.serialize { s with columns := restoredColumns s.columns t.columns } := by
  have hread := h.rereads (fun a c rows hc => (hok a c rows hc).sized) hfit (fun c hc => by
    obtain ⟨a, ha⟩ := List.getElem?_of_mem hc
    exact (hok _ _ _ (h.column a c ha)).dict.small.trans_lt (by decide)) ht
  unfold new at ht
  rw [h.checked] at ht
  cases ht
  exact h.reread_eq hok ▸ hread

/-- The rows before number `k` with their liveness, the others not live. -/
def publishedTo (k : ℕ) (rows : List ColRow) : List ColRow :=
  rows.mapIdx fun i r => (r.1 && decide (i < k), r.2)

theorem publishedTo_zero (rows : List ColRow) : publishedTo 0 rows = Column.unpublished rows := by
  refine List.ext_getElem (by simp [publishedTo, Column.unpublished]) fun i _ _ => ?_
  simp [publishedTo, Column.unpublished]

theorem publishedTo_all {k : ℕ} {rows : List ColRow} (hk : rows.length ≤ k) :
    publishedTo k rows = rows := by
  refine List.ext_getElem (by simp [publishedTo]) fun i _ h2 => ?_
  simp [publishedTo, show i < k by omega]

theorem getElem?_publishedTo {k : ℕ} {rows : List ColRow} {r : ColRow} (hr : rows[k]? = some r) :
    (publishedTo k rows)[k]? = some (false, r.2) := by
  simp [publishedTo, hr]

theorem publishedTo_succ {k : ℕ} {rows : List ColRow} {r : ColRow} (hr : rows[k]? = some r) :
    publishedTo (k + 1) rows = (publishedTo k rows).set k r := by
  refine List.ext_getElem? fun i => ?_
  simp only [publishedTo, List.getElem?_mapIdx, List.getElem?_set, List.length_mapIdx]
  by_cases hi : k = i
  · subst hi
    obtain ⟨hlt, rfl⟩ := List.getElem?_eq_some_iff.1 hr
    simp [hlt]
  · rw [if_neg hi]
    have : i < k + 1 ↔ i < k := by omega
    simp [this]

/-- The loop of `rebuild_derived_state` publishes the live rows one by one. -/
theorem rebuildRows_ok (hR : ∀ {a c c' rows i v}, J a c rows → rows[i]? = some (false, v) →
      c.rebuildRow i = .ok () c' → J a c' (rows.set i (true, v)))
    {n k : ℕ} {deleted : List Bool} {cs cs' : List (Column ι)} (hk : k + n = rows.length)
    (hdel : ∀ i r, rows[i]? = some r → deleted.getD i false = !r.isLive)
    (hcs : ∀ a c, cs[a]? = some c → J a c (publishedTo k (rows.map (Row.col a))))
    (he : rebuildRows deleted (List.range' k n) cs = .ok () cs') :
    cs'.length = cs.length ∧ ∀ a c', cs'[a]? = some c' →
      (∃ c, cs[a]? = some c ∧ c'.type = c.type) ∧ J a c' (rows.map (Row.col a)) := by
  induction n generalizing k cs with
  | zero =>
    cases he
    refine ⟨rfl, fun a c hc => ⟨⟨c, hc, rfl⟩, ?_⟩⟩
    have hall : publishedTo k (rows.map (Row.col a)) = rows.map (Row.col a) :=
      publishedTo_all (by simp; omega)
    exact hall ▸ hcs a c hc
  | succ n ih =>
    obtain ⟨r, hr⟩ : ∃ r, rows[k]? = some r := ⟨_, List.getElem?_eq_getElem (by omega)⟩
    have hrow : ∀ a, publishedTo (k + 1) (rows.map (Row.col a)) =
        (publishedTo k (rows.map (Row.col a))).set k (r.isLive, r.attr a) := fun a =>
      publishedTo_succ (col_of_getElem hr a)
    have hself : ∀ a, (publishedTo k (rows.map (Row.col a)))[k]? = some (false, r.attr a) :=
      fun a => getElem?_publishedTo (col_of_getElem hr a)
    rw [List.range'_succ, rebuildRows, hdel k r hr] at he
    cases hlive : r.isLive with
    | false =>
      rw [hlive] at he
      refine ih (by omega) (fun a c hc => ?_) he
      have hnone : publishedTo (k + 1) (rows.map (Row.col a)) =
          publishedTo k (rows.map (Row.col a)) := by
        obtain ⟨hlt, hget⟩ := List.getElem?_eq_some_iff.1 (hself a)
        rw [hrow, hlive, ← hget, List.set_getElem_self]
      exact hnone ▸ hcs a c hc
    | true =>
      rw [hlive, Bool.not_true, if_neg Bool.false_ne_true] at he
      cases hf : forColumns (fun _ (c : Column ι) => c.rebuildRow k) 0 cs with
      | error e cs₁ =>
        rw [hf] at he
        cases he
      | ok _ cs₁ =>
        rw [hf] at he
        obtain ⟨hlen, hall⟩ := forColumns_ok hf
        have hcs₁ : ∀ (a : ℕ) (c₁ : Column ι), cs₁[a]? = some c₁ →
            J a c₁ (publishedTo (k + 1) (rows.map (Row.col a))) := fun a c₁ hc₁ => by
          obtain ⟨c, hc, hre⟩ := hall a c₁ hc₁
          rw [hrow, hlive]
          exact hR (hcs a c hc) (hself a) hre
        obtain ⟨hlen', hall'⟩ := ih (by omega) hcs₁ he
        refine ⟨hlen'.trans hlen, fun a c' hc' => ?_⟩
        obtain ⟨⟨c₁, hc₁, ht₁⟩, hj⟩ := hall' a c' hc'
        obtain ⟨c, hc, hre⟩ := hall a c₁ hc₁
        refine ⟨⟨c, hc, ht₁.trans ?_⟩, hj⟩
        have := Column.type_rebuildRow c k
        rwa [hre] at this

/-- Read back as `got` says and rebuilt against the true liveness, the store holds the same rows. -/
theorem Holds.rebuild {J' : ℕ → Column ι → List ColRow → Prop}
    (got : Column ι → Column ι → Column ι)
    (htype : ∀ c t, (got c t).type = c.type)
    (hgot : ∀ {a c rows} spec, schema[a]? = some spec → J a c rows →
      J' a (got c (Column.new spec)).clearDerived (Column.unpublished rows))
    (hR : ∀ {a c c' rows i v}, J' a c rows → rows[i]? = some (false, v) →
      c.rebuildRow i = .ok () c' → J' a c' (rows.set i (true, v)))
    (h : s.Holds J schema rows) {deleted : List Bool}
    (hdel : ∀ i r, rows[i]? = some r → deleted.getD i false = !r.isLive)
    (he : { s with columns :=
        List.zipWith got s.columns (schema.map Column.new) }.rebuildDerivedState deleted =
      .ok () s') : s'.Holds J' schema rows := by
  unfold rebuildDerivedState at he
  dsimp only at he
  set cs₀ := (List.zipWith got s.columns (schema.map Column.new)).map Column.clearDerived with hcs₀
  have hcol₀ : ∀ (a : ℕ) (c₀ : Column ι), cs₀[a]? = some c₀ →
      ∃ (c : Column ι) (spec : AttrSpec), s.columns[a]? = some c ∧ schema[a]? = some spec ∧
        c₀ = (got c (Column.new spec)).clearDerived := by
    intro a c₀ hc₀
    obtain ⟨c₁, hc₁, rfl⟩ := Option.map_eq_some_iff.1 ((List.getElem?_map ..).symm.trans hc₀)
    rw [List.getElem?_zipWith_eq_some] at hc₁
    obtain ⟨c, u, hc, hu, rfl⟩ := hc₁
    obtain ⟨spec, hspec, rfl⟩ := Option.map_eq_some_iff.1 ((List.getElem?_map ..).symm.trans hu)
    exact ⟨c, spec, hc, hspec, rfl⟩
  cases hr : rebuildRows deleted (List.range s.rows) cs₀ with
  | error e cs =>
    rw [hr] at he
    cases he
  | ok _ cs =>
    rw [hr] at he
    cases he
    rw [List.range_eq_range', h.rowCount] at hr
    obtain ⟨hlen, hall⟩ := rebuildRows_ok (J := J') hR (Nat.zero_add _) hdel (fun a c₀ hc₀ => by
      obtain ⟨c, spec, hc, hspec, rfl⟩ := hcol₀ a c₀ hc₀
      exact (publishedTo_zero _).symm ▸ hgot spec hspec (h.column a c hc)) hr
    refine h.step rfl rfl ?_ (fun a c' hc' => ?_) h.payload h.rowCount h.arity
    · change cs.length = _
      rw [hlen, hcs₀, List.length_map, List.length_zipWith, List.length_map, h.columns, min_self]
    · obtain ⟨⟨c₀, hc₀, ht⟩, hj⟩ := hall a c' hc'
      obtain ⟨c, spec, hc, -, rfl⟩ := hcol₀ a c₀ hc₀
      refine ⟨c, hc, ht.trans ?_, hj⟩
      rw [Column.type_clearDerived, htype]

/-- Loaded and rebuilt against the true liveness, the store holds the same rows. -/
theorem Holds.reload {t : MetadataStore ι} (hR : Column.Reloads J)
    (h : s.Holds J schema rows) (ht : new schema = .ok t) {deleted : List Bool}
    (hdel : ∀ i r, rows[i]? = some r → deleted.getD i false = !r.isLive)
    (he : { s with columns := restoredColumns s.columns t.columns }.rebuildDerivedState deleted =
      .ok () s') : s'.Holds J schema rows := by
  unfold new at ht
  rw [h.checked] at ht
  cases ht
  exact h.rebuild Column.restored Column.type_restored
    (fun spec _ => hR.restored spec) hR.rebuildRow
    hdel he

/-- Read back and rebuilt against the true liveness, the store holds the same rows. -/
theorem Holds.rebuildReread {J' : ℕ → Column ι → List ColRow → Prop}
    (hgot : ∀ {a c rows} spec, schema[a]? = some spec → J a c rows →
      J' a (c.reread (Column.new spec)).clearDerived (Column.unpublished rows))
    (hR : ∀ {a c c' rows i v}, J' a c rows → rows[i]? = some (false, v) →
      c.rebuildRow i = .ok () c' → J' a c' (rows.set i (true, v)))
    (h : s.Holds J schema rows) {deleted : List Bool}
    (hdel : ∀ i r, rows[i]? = some r → deleted.getD i false = !r.isLive)
    (he : s.reread.rebuildDerivedState deleted = .ok () s') : s'.Holds J' schema rows := by
  rw [MetadataStore.reread, show s.schema.map Column.new = schema.map (Column.new (ι := ι)) by
    rw [h.declared]] at he
  exact h.rebuild Column.reread Column.type_reread hgot hR hdel he

theorem new_ok (h : checkSchema schema = .ok ()) :
    ∃ t : MetadataStore ι, new schema = .ok t := by
  unfold new
  rw [h]
  exact ⟨_, rfl⟩

end MetadataStore

end Metadata

end Vdb
