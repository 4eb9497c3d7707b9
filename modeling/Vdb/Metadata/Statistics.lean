import Vdb.Metadata.Lifecycle
import Vdb.Metadata.Index

/-!
# The statistics of a store

`Tracked` runs the operations of a `MetadataStore` in the order in which a row lives: it is
appended, published, overwritten while it is live and tombstoned; rows are renumbered all at once,
and the store is saved and loaded.

* `Tracked.statistics_exact` : the counters of a store are those of its live rows after every run,
  and a string keeps its code.
* `Tracked.long_text_miscounted` : the token count of a text is cut to 32 bits.
-/

namespace Vdb

namespace Metadata

/-- The texts have fewer tokens than a token count can say. -/
def Record.TextsFit (rec : Record) : Prop :=
  ∀ v ∈ rec.attrs, v.type = .text → (tokenizeText v.text).length < 2 ^ 32

instance (rec : Record) : Decidable rec.TextsFit :=
  inferInstanceAs (Decidable (∀ v ∈ rec.attrs, v.type = .text →
    (tokenizeText v.text).length < 2 ^ 32))

inductive Op where
  | appendRow (rec : Record)
  | appendRowCopy (src : InternalId)
  | markLive (id : InternalId)
  | markDead (id : InternalId)
  | setRow (id : InternalId) (rec : Record)
  | permute (live : List InternalId)
  | clearRows
  /-- Save, load into a new store and rebuild. -/
  | reload

namespace MetadataStore

variable {ι : Type} [ColumnIndex ι] (s : MetadataStore ι)

/-- `serialize`, `deserialize` into a store of the same schema, and `rebuild_derived_state`. -/
def reload (deleted : List Bool) : Outcome (MetadataStore ι) Unit :=
  match new s.schema with
  | .error e => .error e s
  | .ok t =>
    match t.deserialize s.serialize with
    | .error e => .error e t
    | .ok (t, _) => t.rebuildDerivedState deleted

def perform (deleted : List Bool) : Op → Outcome (MetadataStore ι) Unit
  | .appendRow rec => s.appendRow rec
  | .appendRowCopy src => .ok () (s.appendRowCopy src)
  | .markLive id => s.markLive id
  | .markDead id => s.markDead id
  | .setRow id rec => s.setRow id rec
  | .permute live => s.permute live
  | .clearRows => .ok () s.clearRows
  | .reload => s.reload deleted

/-- The code of a value of a Tag or a Bool column. -/
def codeOf (a : ℕ) (v : AttrValue) : Option ℕ :=
  match v.type with
  | .tag => s.tagCode a v.text
  | .bool => some v.raw.toNat
  | _ => none

end MetadataStore

/-- A store and the rows it should hold. -/
structure Tracked (ι : Type) where
  store : MetadataStore ι
  rows : List Row

namespace MetadataStore

variable {ι : Type} (s : MetadataStore ι) (rows : List Row)

/-- The statistics of the store are those of the rows. -/
structure Exact : Prop where
  values : ∀ i r a, rows[i]? = some r → a < s.schema.length → (s.get i a).carried = r.attr a
  count : ∀ a spec, s.schema[a]? = some spec → spec.type = .tag ∨ spec.type = .bool →
    ∀ code, s.count a code = rows.countP fun r => r.isLive && decide (s.codeOf a (r.attr a) = code)
  termCount : ∀ a spec, s.schema[a]? = some spec → spec.type = .text →
    ∀ term code, s.tagCode a term = some code →
      s.count a code = rows.countP fun r => r.isLive && decide (term ∈ tokenizeText (r.attr a).text)
  textLiveCount : ∀ a spec, s.schema[a]? = some spec → spec.type = .text →
    s.textLiveCount a = rows.countP fun r => r.isLive && !(r.attr a).isNull
  totalDocLen : ∀ a spec, s.schema[a]? = some spec → spec.type = .text →
    (s.column a).totalDocLen =
      ((rows.filter Row.isLive).map fun r => (tokenizeText (r.attr a).text).length).sum
  codes : ∀ a spec, s.schema[a]? = some spec → spec.type = .tag ∨ spec.type = .text →
    ∀ str code, s.tagCode a str = some code ↔ (s.column a).dict[code]? = some str
  lengths : ∀ a spec, s.schema[a]? = some spec → spec.type = .tag ∨ spec.type = .text →
    (s.column a).count.length = (s.column a).dict.length ∧
      (s.column a).postings.length = (s.column a).dict.length
  /-- The counters a live row is counted in can be counted down. -/
  noUnderflow : ∀ i r a, rows[i]? = some r → r.isLive = true → a < s.schema.length →
    (s.column a).isPresent i = true →
      (∀ code ∈ (s.column a).codesAt i, 0 < s.count a code) ∧
        ((s.column a).type = .text → 0 < (s.column a).liveDocCount ∧
          (s.column a).docLen.getD i 0 ≤ (s.column a).totalDocLen)

end MetadataStore

namespace Tracked

variable {ι : Type} [ColumnIndex ι] {schema : List AttrSpec}

/-- The liveness bitmap the caller keeps. -/
def deleted (t : Tracked ι) : List Bool := t.rows.map fun r => !r.isLive

/-- What a call that returns does to the rows. -/
def effect (t : Tracked ι) : Op → List Row
  | .appendRow rec => t.rows ++ [Row.ofRecord t.store.schema.length rec]
  | .appendRowCopy src =>
    t.rows ++ [{ t.rows.getD src ⟨.dead, [], []⟩ with status := .pending }]
  | .markLive id => t.rows.modify id fun r => { r with status := .live }
  | .markDead id => t.rows.modify id fun r => { r with status := .dead }
  | .setRow id rec => t.rows.modify id fun r =>
      { r with attrs := Row.attrsOf t.store.schema.length rec, payload := rec.payload }
  | .permute live => MetadataStore.keptRows t.rows live
  | .clearRows => []
  | .reload => t.rows

def step (t : Tracked ι) (op : Op) : Tracked ι :=
  match t.store.perform t.deleted op with
  | .ok _ store => ⟨store, t.effect op⟩
  | .error _ store => { t with store }

/-- The operation is applied to a row at a time of its life where it may be. -/
def InOrder (rows : List Row) : Op → Prop
  | .appendRow rec => rec.BoolsOk
  | .appendRowCopy src => src < rows.length
  | .markLive id => ∃ r ∈ rows[id]?, r.status = .pending
  | .markDead id => ∃ r ∈ rows[id]?, r.status = .live
  | .setRow id rec => (∃ r ∈ rows[id]?, r.status = .live) ∧ rec.BoolsOk
  | .permute live => MetadataStore.LiveRows rows live
  | .clearRows => True
  | .reload => True

/-- The record of the operation does not match the schema. -/
def Rejected (schema : List AttrSpec) : Op → Prop
  | .appendRow rec => validate schema rec ≠ .ok ()
  | .setRow _ rec => validate schema rec ≠ .ok ()
  | _ => False

/-- The texts of the operation fit the token counts, and the containers it saves their sizes. -/
def SizesFit (s : MetadataStore ι) : Op → Prop
  | .appendRow rec => rec.TextsFit
  | .setRow _ rec => rec.TextsFit
  | .reload => s.SizesFit
  | _ => True

/-- A step of a run: its call is in order and returns, unless its record is rejected; everything
fits, and every dictionary its codes. -/
structure Legal (t : Tracked ι) (op : Op) : Prop where
  order : InOrder t.rows op
  sizes : SizesFit t.store op
  returns : (t.store.perform t.deleted op).Returns ∨ Rejected t.store.schema op
  fits : (t.step op).store.Fits

instance (rows : List Row) : DecidablePred (InOrder rows)
  | .appendRow rec => inferInstanceAs (Decidable rec.BoolsOk)
  | .appendRowCopy src => inferInstanceAs (Decidable (src < rows.length))
  | .markLive id => inferInstanceAs (Decidable (∃ r ∈ rows[id]?, r.status = .pending))
  | .markDead id => inferInstanceAs (Decidable (∃ r ∈ rows[id]?, r.status = .live))
  | .setRow id rec =>
    inferInstanceAs (Decidable ((∃ r ∈ rows[id]?, r.status = .live) ∧ rec.BoolsOk))
  | .permute live => inferInstanceAs (Decidable (MetadataStore.LiveRows rows live))
  | .clearRows => .isTrue trivial
  | .reload => .isTrue trivial

instance (schema : List AttrSpec) : DecidablePred (Rejected schema)
  | .appendRow rec => inferInstanceAs (Decidable (validate schema rec ≠ .ok ()))
  | .setRow _ rec => inferInstanceAs (Decidable (validate schema rec ≠ .ok ()))
  | .appendRowCopy _ => .isFalse id
  | .markLive _ => .isFalse id
  | .markDead _ => .isFalse id
  | .permute _ => .isFalse id
  | .clearRows => .isFalse id
  | .reload => .isFalse id

instance (s : MetadataStore ι) : DecidablePred (SizesFit s)
  | .appendRow rec => inferInstanceAs (Decidable rec.TextsFit)
  | .setRow _ rec => inferInstanceAs (Decidable rec.TextsFit)
  | .reload => inferInstanceAs (Decidable s.SizesFit)
  | .appendRowCopy _ => .isTrue trivial
  | .markLive _ => .isTrue trivial
  | .markDead _ => .isTrue trivial
  | .permute _ => .isTrue trivial
  | .clearRows => .isTrue trivial

instance (t : Tracked ι) (op : Op) : Decidable (Legal t op) :=
  decidable_of_iff (InOrder t.rows op ∧ SizesFit t.store op ∧
      ((t.store.perform t.deleted op).Returns ∨ Rejected t.store.schema op) ∧
      (t.step op).store.Fits)
    ⟨fun h => ⟨h.1, h.2.1, h.2.2.1, h.2.2.2⟩, fun h => ⟨h.order, h.sizes, h.returns, h.fits⟩⟩

/-! ### What holds along a run -/

/-- The column holds the rows, and the codes of `base` are still in it. -/
def Holding (base : ℕ → Bytes → Option ℕ) (a : ℕ) (c : Column ι) (rows : List ColRow) : Prop :=
  c.Ok rows ∧ ∀ str k, base a str = some k → c.codes str = some k

omit [ColumnIndex ι] in
/-- Codes stay while the dictionary grows. -/
theorem Holding.of_grows {base : ℕ → Bytes → Option ℕ} {a : ℕ} {c d c' : Column ι}
    {rows rows' : List ColRow} (h : Holding base a c rows) (hg : c.Grows d) (hd : d.Dict)
    (hok : c'.Ok rows') (hdict : c'.dict = d.dict) : Holding base a c' rows' := by
  refine ⟨hok, fun str k hk => ?_⟩
  rw [hok.dict.codes, hdict, ← hd.codes]
  exact hg.codes str k (h.2 str k hk)

omit [ColumnIndex ι] in
theorem Holding.of_dict {base : ℕ → Bytes → Option ℕ} {a : ℕ} {c c' : Column ι}
    {rows rows' : List ColRow} (h : Holding base a c rows) (hok : c'.Ok rows')
    (hdict : c'.dict = c.dict) : Holding base a c' rows' :=
  h.of_grows (.refl c) h.1.dict hok hdict

theorem invariant_holding (base : ℕ → Bytes → Option ℕ) :
    Column.Invariant (ι := ι) True (Holding base) anyWrite where
  ok _ h := h.1
  append {a c rows v} h htyped hexact := by
    have hok := Column.invariant_ok.append (a := a) h.1 htyped hexact
    obtain ⟨hv, hfit⟩ := hexact trivial
    rw [Column.appendValue_eq, Column.dict_push] at hfit
    obtain ⟨hd, hg, -⟩ := h.1.dict.cellOf hv.typed hv.bool hfit
    refine h.of_grows hg hd hok ?_
    rw [Column.dict_addPosting, Column.appendValue_eq, Column.dict_push]
  copy {a c rows i r} h hi := by
    refine h.of_dict (h.1.appendCopy hi _) ?_
    rw [Column.dict_addPosting, Column.appendCopy_eq, Column.dict_push]
  adjust {a c c' rows i b v} h hi he := by
    have hdict := Column.dict_adjust c i b
    rw [he] at hdict
    exact h.of_dict (Column.invariant_ok.adjust (a := a) h.1 hi he) hdict
  setRow {a c c' rows i w v} h hi htyped hW he hexact := by
    have hok := Column.invariant_ok.setRow (a := a) h.1 hi htyped hW he hexact
    obtain ⟨hv, hfit⟩ := hexact trivial
    have hfit' : (c.setRow i v).state.dict.length ≤ 2 ^ 32 := by rwa [he]
    obtain ⟨hdict, hd, hg, -⟩ := h.1.setRow_stores hi hv hfit'
    rw [he] at hdict
    have h1 : Holding base a (c.adjust i false).state (rows.set i (false, w)) :=
      h.of_dict (h.1.adjust hi) (Column.dict_adjust c i false)
    exact h1.of_grows hg hd hok hdict
  permute {a c c' rows live} h hn hlive he := by
    have hdict := Column.dict_permute c live
    rw [he] at hdict
    exact h.of_dict (Column.invariant_ok.permute (a := a) h.1 hn hlive he) hdict
  clearRows {a c rows} h := h.of_dict h.1.clearRows (Column.dict_clearRows c)

theorem reloads_holding (base : ℕ → Bytes → Option ℕ) :
    Column.Reloads (ι := ι) (Holding base) where
  restored {a c rows} spec h := by
    refine h.of_dict (Column.reloads_ok.restored (a := a) spec h.1) ?_
    rw [Column.dict_clearDerived, Column.dict_restored]
  rebuildRow {a c c' rows i v} h hi he := by
    have hdict := Column.dict_rebuildRow c i
    rw [he] at hdict
    exact h.of_dict (Column.reloads_ok.rebuildRow (a := a) h.1 hi he) hdict

/-- The texts of the row have fewer tokens than a token count can say. -/
def RowFits (r : Row) : Prop :=
  ∀ v ∈ r.attrs, v.type = .text → (tokenizeText v.text).length < 2 ^ 32

structure Inv (base : ℕ → Bytes → Option ℕ) (schema : List AttrSpec) (t : Tracked ι) : Prop where
  holds : t.store.Holds (Holding base) schema t.rows
  texts : ∀ r ∈ t.rows, RowFits r

theorem rowFits_attrsOf {rec : Record} (h : rec.TextsFit) (n : ℕ) (status : RowStatus)
    (payload : Bytes) : RowFits ⟨status, Row.attrsOf n rec, payload⟩ := by
  intro v hv ht
  obtain ⟨a, -, rfl⟩ := List.mem_map.1 hv
  rw [AttrValue.type_carried] at ht
  rw [AttrValue.text_carried (.inr ht)]
  unfold Record.attr at ht ⊢
  rw [List.getD_eq_getElem?_getD] at ht ⊢
  cases ha : rec.attrs[a]? with
  | none =>
    rw [ha] at ht
    cases ht
  | some v =>
    rw [ha] at ht
    exact h v (List.mem_of_getElem? ha) ht

theorem rowFits_modify {rows : List Row} (h : ∀ r ∈ rows, RowFits r) (i : ℕ) {upd : Row → Row}
    (hupd : ∀ r, RowFits r → RowFits (upd r)) : ∀ r ∈ rows.modify i upd, RowFits r := by
  intro r hr
  obtain ⟨j, hj⟩ := List.getElem?_of_mem hr
  rw [List.getElem?_modify] at hj
  obtain ⟨r', hr', rfl⟩ := Option.map_eq_some_iff.1 hj
  have hr'' := h r' (List.mem_of_getElem? hr')
  split_ifs
  · exact hupd r' hr''
  · exact hr''

/-- A rejected call leaves everything as it was. -/
theorem step_of_rejected {t : Tracked ι} {op : Op} (h : Rejected t.store.schema op) :
    t.step op = t := by
  have hrejected : ∀ rec, validate t.store.schema rec ≠ .ok () →
      ∃ e, validate t.store.schema rec = .error e := by
    intro rec hne
    cases hv : validate t.store.schema rec with
    | error e => exact ⟨e, rfl⟩
    | ok _ => exact absurd hv hne
  unfold step
  cases op with
  | appendRow rec =>
    obtain ⟨e, he⟩ := hrejected rec h
    simp only [MetadataStore.perform, MetadataStore.appendRow, he]
  | setRow id rec =>
    obtain ⟨e, he⟩ := hrejected rec h
    simp only [MetadataStore.perform, MetadataStore.setRow, he]
  | _ => exact absurd h id

omit [ColumnIndex ι] in
theorem deleted_eq (t : Tracked ι) (i : ℕ) (r : Row) (hr : t.rows[i]? = some r) :
    t.deleted.getD i false = !r.isLive :=
  MetadataStore.getD_of_getElem (by rw [deleted, List.getElem?_map, hr]; rfl) false

/-- Saving and loading leaves a store that holds the same rows. -/
theorem Inv.reload {base : ℕ → Bytes → Option ℕ} {t : Tracked ι} (h : Inv base schema t)
    (hfit : t.store.SizesFit) {s' : MetadataStore ι}
    (he : t.store.reload t.deleted = .ok () s') : s'.Holds (Holding base) schema t.rows := by
  obtain ⟨u, hu⟩ := MetadataStore.new_ok (ι := ι) h.holds.checked
  have hread := h.holds.reads (fun _ _ _ h => h.1) hfit hu []
  rw [List.append_nil] at hread
  unfold MetadataStore.reload at he
  rw [h.holds.declared, hu] at he
  simp only [hread] at he
  exact h.holds.reload (reloads_holding base) hu t.deleted_eq he

theorem Inv.step {base : ℕ → Bytes → Option ℕ} {t : Tracked ι} {op : Op} (h : Inv base schema t)
    (hl : Legal t op) : Inv base schema (t.step op) := by
  rcases hl.returns with hret | hrej
  swap
  · rwa [step_of_rejected hrej]
  have hJ := invariant_holding (ι := ι) base
  have hfits := hl.fits
  have horder := hl.order
  have hsizes := hl.sizes
  cases hp : t.store.perform t.deleted op with
  | error e s =>
    rw [hp] at hret
    exact absurd hret id
  | ok _ s =>
    have hstep : t.step op = ⟨s, t.effect op⟩ := by rw [Tracked.step, hp]
    rw [hstep] at hfits ⊢
    cases op with
    | appendRow rec =>
      refine ⟨?_, fun r hr => ?_⟩
      · rw [effect, h.holds.declared]
        exact h.holds.appendRow hJ (fun _ => horder) hp fun _ => hfits
      rcases List.mem_append.1 hr with hr | hr
      · exact h.texts r hr
      · rw [List.mem_singleton.1 hr]
        exact rowFits_attrsOf hsizes _ _ _
    | appendRowCopy src =>
      obtain ⟨r, hr⟩ : ∃ r, t.rows[src]? = some r := ⟨_, List.getElem?_eq_getElem horder⟩
      cases hp
      have hget : t.rows.getD src ⟨.dead, [], []⟩ = r := MetadataStore.getD_of_getElem hr _
      refine ⟨?_, fun r' hr' => ?_⟩
      · simp only [effect, hget]
        exact h.holds.appendRowCopy hJ hr
      · simp only [effect, hget] at hr'
        rcases List.mem_append.1 hr' with hr' | hr'
        · exact h.texts r' hr'
        · rw [List.mem_singleton.1 hr']
          exact h.texts r (List.mem_of_getElem? hr)
    | markLive id =>
      obtain ⟨r, hr, hstatus⟩ := horder
      refine ⟨h.holds.markLive hJ hr (by simp [Row.isLive, hstatus]) hp, ?_⟩
      exact rowFits_modify h.texts id fun r hr => hr
    | markDead id =>
      obtain ⟨r, hr, hstatus⟩ := horder
      refine ⟨h.holds.markDead hJ hr (by simp [Row.isLive, hstatus]) hp, ?_⟩
      exact rowFits_modify h.texts id fun r hr => hr
    | setRow id rec =>
      obtain ⟨⟨r, hr, hstatus⟩, hbools⟩ := horder
      refine ⟨?_, ?_⟩
      · rw [effect, h.holds.declared]
        exact h.holds.setRow hJ hr (by simp [Row.isLive, hstatus]) (fun _ => hbools)
          (fun _ _ => trivial) hp fun _ => hfits
      exact rowFits_modify h.texts id fun r _ => rowFits_attrsOf hsizes _ _ _
    | permute live =>
      refine ⟨h.holds.permute hJ horder hp, fun r hr => ?_⟩
      obtain ⟨src, hsrc, rfl⟩ := List.mem_map.1 hr
      obtain ⟨r, hr, -⟩ := (horder.2 src).1 hsrc
      rw [MetadataStore.getD_of_getElem hr]
      exact h.texts r (List.mem_of_getElem? hr)
    | clearRows =>
      cases hp
      exact ⟨h.holds.clearRows hJ, by rintro r ⟨⟩⟩
    | reload => exact ⟨h.reload hsizes hp, h.texts⟩

omit [ColumnIndex ι] in
/-- A Tag or a Bool is counted under its code. -/
theorem mem_codesOf {s : MetadataStore ι} {a k : ℕ} {c : Column ι} {v : AttrValue}
    (hc : s.column a = c) (ht : c.type = .tag ∨ c.type = .bool)
    (hv : v.isNull = true ∨ v.type = c.type) : k ∈ c.codesOf v ↔ s.codeOf a v = some k := by
  unfold Column.codesOf MetadataStore.codeOf
  cases hnull : v.isNull with
  | true => simp [show v.type = .null from of_decide_eq_true hnull]
  | false =>
    have htype : v.type = c.type := hv.resolve_left (by simp [hnull])
    rcases ht with ht | ht <;> rw [htype, ht]
    · simp [MetadataStore.tagCode, hc, Option.mem_toList]
    · simp [eq_comm]

omit [ColumnIndex ι] in
/-- A text is counted under the codes of its terms. -/
theorem mem_codesOf_text {c : Column ι} {x : Cell} {v : AttrValue} {k : ℕ} {term : Bytes}
    (hx : c.Stores x v) (hd : c.Dict) (ht : c.type = .text) (hk : c.codes term = some k) :
    k ∈ c.codesOf v ↔ term ∈ tokenizeText v.text := by
  have hterm : ∀ tok, c.codes tok = some k → tok = term := by
    intro tok htok
    rw [hd.codes] at htok hk
    exact Option.some.inj (htok.symm.trans hk)
  unfold Column.codesOf
  cases hnull : v.isNull with
  | true =>
    rw [← hx.carried, AttrValue.carried_null hnull]
    simp [show tokenizeText [] = [] from rfl]
  | false =>
    rw [if_neg (by simp), ht]
    change k ∈ termCodes c.codes v.text ↔ _
    rw [Column.mem_termCodes]
    constructor
    · rintro ⟨tok, htok, hcode⟩
      exact hterm tok hcode ▸ htok
    · intro hmem
      exact ⟨term, hmem, hk⟩

omit [ColumnIndex ι] in
theorem sum_filter_live (rows : List Row) (f : Row → ℕ) :
    ((rows.filter Row.isLive).map f).sum = (rows.map fun r => if r.isLive then f r else 0).sum := by
  induction rows with
  | nil => rfl
  | cons r rows ih =>
    rw [List.filter_cons, List.map_cons, List.sum_cons]
    split_ifs
    · rw [List.map_cons, List.sum_cons, ih]
    · rw [ih, Nat.zero_add]

omit [ColumnIndex ι] in
theorem Inv.exact {base : ℕ → Bytes → Option ℕ} {t : Tracked ι} (h : Inv base schema t) :
    t.store.Exact t.rows := by
  have hcol : ∀ a, a < t.store.schema.length →
      (t.store.column a).Ok (t.rows.map (Row.col a)) := by
    intro a ha
    rw [h.holds.declared, ← h.holds.columns] at ha
    have hget := List.getElem?_eq_getElem ha
    rw [MetadataStore.column_of_getElem hget]
    exact (h.holds.column a _ hget).1
  have htype : ∀ a spec, t.store.schema[a]? = some spec →
      a < t.store.schema.length ∧ (t.store.column a).type = spec.type := by
    intro a spec hs
    have ha : a < t.store.schema.length := (List.getElem?_eq_some_iff.1 hs).1
    rw [h.holds.declared] at hs
    have hget := List.getElem?_eq_getElem
      (h.holds.columns.symm ▸ (List.getElem?_eq_some_iff.1 hs).1)
    obtain ⟨spec', hs', ht⟩ := h.holds.types a _ hget
    rw [MetadataStore.column_of_getElem hget, ht]
    exact ⟨ha, congrArg AttrSpec.type (Option.some.inj (hs'.symm.trans hs))⟩
  have hstores : ∀ a, a < t.store.schema.length → ∀ r ∈ t.rows,
      ∃ x, (t.store.column a).Stores x (r.attr a) := by
    intro a ha r hr
    obtain ⟨i, hi⟩ := List.getElem?_of_mem hr
    exact ⟨_, (hcol a ha).stores_at (MetadataStore.col_of_getElem hi a)⟩
  refine ⟨fun i r a hi ha => ?_, fun a spec hs ht code => ?_,
    fun a spec hs ht term code hcode => ?_,
    fun a spec hs ht => ?_, fun a spec hs ht => ?_, fun a spec hs ht str code => ?_,
    fun a spec hs ht => ?_, fun i r a hi hlive ha hp => ?_⟩
  · exact ((hcol a ha).stores_at (MetadataStore.col_of_getElem hi a)).get (hcol a ha).dict
  · obtain ⟨ha, hspec⟩ := htype a spec hs
    rw [MetadataStore.count, (hcol a ha).count, List.countP_map]
    refine List.countP_congr fun r hr => ?_
    obtain ⟨x, hx⟩ := hstores a ha r hr
    simp only [Function.comp_apply, Row.col, mem_codesOf rfl (hspec ▸ ht) hx.typed]
  · obtain ⟨ha, hspec⟩ := htype a spec hs
    rw [MetadataStore.count, (hcol a ha).count, List.countP_map]
    refine List.countP_congr fun r hr => ?_
    obtain ⟨x, hx⟩ := hstores a ha r hr
    simp only [Function.comp_apply, Row.col,
      mem_codesOf_text hx (hcol a ha).dict (hspec.trans ht) hcode]
  · obtain ⟨ha, hspec⟩ := htype a spec hs
    rw [MetadataStore.textLiveCount, (hcol a ha).docCount (hspec.trans ht), List.countP_map]
    rfl
  · obtain ⟨ha, hspec⟩ := htype a spec hs
    rw [(hcol a ha).docLen (hspec.trans ht), sum_filter_live, List.map_map]
    refine congrArg List.sum (List.map_congr_left fun r hr => ?_)
    obtain ⟨x, hx⟩ := hstores a ha r hr
    have hlt : (tokenizeText (r.attr a).text).length < 2 ^ 32 := by
      cases hnull : (r.attr a).isNull with
      | true =>
        rw [← hx.carried, AttrValue.carried_null hnull]
        decide
      | false =>
        refine h.texts r hr _ ?_ ?_
        · rw [Row.attr, List.getD_eq_getElem _ _ (by rwa [h.holds.arity r hr, ← h.holds.declared])]
          exact List.getElem_mem _
        · exact (hx.typed.resolve_left (by simp [hnull])).trans (hspec.trans ht)
    simp only [Function.comp_apply, Row.col, tokenCount, Nat.mod_eq_of_lt hlt]
  · obtain ⟨ha, hspec⟩ := htype a spec hs
    exact (hcol a ha).dict.codes str code
  · obtain ⟨ha, hspec⟩ := htype a spec hs
    have hwidth : (t.store.column a).width = (t.store.column a).dict.length :=
      if_neg (by rw [hspec]; rcases ht with ht | ht <;> simp [ht])
    exact ⟨(hcol a ha).dict.count.trans hwidth, (hcol a ha).dict.postings.trans hwidth⟩
  · have hrow := MetadataStore.col_of_getElem hi a
    rw [hlive] at hrow
    have hpres : (t.store.column a).isPresent i = !(r.attr a).isNull :=
      ((hcol a ha).stores_at hrow).isPresent
    obtain ⟨-, hpos, htext⟩ := (hcol a ha).counted hrow (by simpa [hp] using hpres)
    exact ⟨hpos, htext⟩

/-- After every run the statistics are those of the live rows, and every code that was given on the
way is still the code of its string. -/
theorem statistics_exact {s : MetadataStore ι} (hnew : MetadataStore.new schema = .ok s)
    (ops ops' : List Op) (h : Run.Along step Legal ⟨s, []⟩ (ops ++ ops')) :
    ((ops ++ ops').foldl step ⟨s, []⟩).store.Exact ((ops ++ ops').foldl step ⟨s, []⟩).rows ∧
      ∀ a str code, (ops.foldl step ⟨s, []⟩).store.tagCode a str = some code →
        ((ops ++ ops').foldl step ⟨s, []⟩).store.tagCode a str = some code := by
  have hstart : Inv (fun _ _ => none) schema (⟨s, []⟩ : Tracked ι) :=
    ⟨MetadataStore.holds_new hnew fun a spec _ => ⟨Column.ok_new spec, by simp⟩, by simp⟩
  have hall := Run.Along.invariant (fun t op => Inv.step) hstart h
  refine ⟨hall.exact, fun a str code hcode => ?_⟩
  rw [Run.Along.append] at h
  have hmid := Run.Along.invariant (fun t op => Inv.step) hstart h.1
  rw [List.foldl_append]
  generalize ops.foldl step ⟨s, []⟩ = t at hmid hcode h
  -- from here on the codes given so far are kept
  have hkeep : Inv (fun a => (t.store.column a).codes) schema t := by
    refine ⟨{ hmid.holds with column := fun a c hc => ⟨(hmid.holds.column a c hc).1, ?_⟩ },
      hmid.texts⟩
    dsimp only
    rw [MetadataStore.column_of_getElem hc]
    exact fun _ _ hk => hk
  have hend := (Run.Along.invariant (fun t op => Inv.step) hkeep h.2).holds
  generalize (ops'.foldl step t).store = t' at hend
  by_cases ha : a < schema.length
  · have hget := List.getElem?_eq_getElem (hend.columns.symm ▸ ha)
    rw [MetadataStore.tagCode, MetadataStore.column_of_getElem hget]
    exact (hend.column a _ hget).2 str code hcode
  · -- there is no such column
    rw [MetadataStore.tagCode, MetadataStore.column,
      List.getD_eq_default _ _ (hmid.holds.columns.symm ▸ not_lt.1 ha)] at hcode
    cases hcode

/-- Documents with a text and a label. -/
def documentSchema : List AttrSpec :=
  [{ name := [116], type := .text }, { name := [108], type := .tag }]

/-- No documents yet. -/
def noDocuments : Tracked PairIndex where
  store := {
    schema := documentSchema, columns := documentSchema.map Column.new, payload := [], rows := 0
    fingerprint := computeFingerprint documentSchema }
  rows := []

/-- A document is written and published, then overwritten, saved and tombstoned. -/
theorem statistics_exact_document :
    let written : List Op :=
      [.appendRow ⟨[attrText [97, 32, 98, 32, 97], attrTag [120]], []⟩, .markLive 0]
    let later : List Op := [.setRow 0 ⟨[attrText [98], attrNull], [7]⟩, .reload, .markDead 0]
    ((written ++ later).foldl step noDocuments).store.Exact
        ((written ++ later).foldl step noDocuments).rows ∧
      ∀ a str code, (written.foldl step noDocuments).store.tagCode a str = some code →
        ((written ++ later).foldl step noDocuments).store.tagCode a str = some code :=
  statistics_exact (s := noDocuments.store)
    (show MetadataStore.new documentSchema = .ok noDocuments.store from rfl) _ _ (by decide +kernel)

/-! ### A text of too many tokens -/

/-- The word "a", `n` times. -/
def words (n : ℕ) : Bytes := (List.replicate n [97, 32]).flatten

theorem tokenizeText_words (n : ℕ) : tokenizeText (words n) = List.replicate n [97] := by
  have hfold : ∀ (n : ℕ) (out : List Bytes),
      (words n).foldl tokenizeByte (out, []) = (out ++ List.replicate n [97], []) := by
    intro n
    induction n with
    | zero => intro out; simp [words]
    | succ n ih =>
      intro out
      have hword : words (n + 1) = [97, 32] ++ words n := rfl
      have hstep : [97, 32].foldl tokenizeByte (out, []) = (out ++ [[97]], []) := rfl
      rw [hword, List.foldl_append, hstep, ih, List.append_assoc]
      rfl
  unfold tokenizeText
  rw [hfold]
  rfl

/-- A document of text `text` is written and published. -/
def published (text : Bytes) : List Op :=
  [.appendRow ⟨[attrText text, attrNull], []⟩, .markLive 0]

/-- A document of up to `2 ^ 32` tokens is counted with its tokens modulo `2 ^ 32`. -/
theorem totalDocLen_published {text : Bytes} (htext : (tokenizeText text).length ≤ 2 ^ 32) :
    Run.Along step (fun t op => InOrder t.rows op ∧ (t.store.perform t.deleted op).Returns ∧
      (t.step op).store.Fits) noDocuments (published text) ∧
    ((published text).foldl step noDocuments).rows =
      [⟨.live, [attrText text, attrNull], []⟩] ∧
    (((published text).foldl step noDocuments).store.column 0).totalDocLen =
      (tokenizeText text).length % 2 ^ 32 := by
  set rec : Record := ⟨[attrText text, attrNull], []⟩ with hrec
  have hnew : noDocuments.store.Holds (fun _ c rows => c.Ok rows) documentSchema [] :=
    MetadataStore.holds_new (s := noDocuments.store) rfl fun _ spec _ => Column.ok_new spec
  set c₀ : Column PairIndex := (Column.new ⟨[116], .text, false⟩).appendValue (attrText text)
    with hc₀
  set c₁ : Column PairIndex := (Column.new ⟨[108], .tag, false⟩).appendValue attrNull with hc₁
  -- the row is appended
  set s₁ : MetadataStore PairIndex := { noDocuments.store with
    columns := [c₀.addPosting 0, c₁.addPosting 0], payload := [[]], rows := 1 } with hs₁
  have happend : noDocuments.store.appendRow rec = .ok () s₁ := rfl
  have hdict₀ : c₀.dict.length ≤ 2 ^ 32 := by
    have := Column.length_dict_internTerms (Column.new (ι := PairIndex) ⟨[116], .text, false⟩) text
    exact this.trans (by simpa [Column.new] using htext)
  have hfits₁ : s₁.Fits := by
    intro c hc
    rcases List.mem_pair.1 hc with rfl | rfl
    · rwa [Column.dict_addPosting]
    · rw [Column.dict_addPosting]
      exact Nat.zero_le _
  have h₁ := hnew.appendRow Column.invariant_ok
    (fun _ => by simp [Record.BoolsOk, hrec, attrText, attrNull]) happend fun _ => hfits₁
  have hstep₁ : noDocuments.step (.appendRow rec) =
      ⟨s₁, [⟨.pending, [attrText text, attrNull], []⟩]⟩ := rfl
  -- it is published
  have hnothing : (forColumns (fun _ c => c.adjust 0 true) 0 s₁.columns).ThrowsOnly
      fun _ => False := by
    refine forColumns_throwsOnly fun a c hc => ?_
    have hnone : c.index = none := by
      rcases List.mem_pair.1 hc with rfl | rfl
      · rw [Column.index_addPosting, hc₀, Column.index_appendValue]
        rfl
      · rw [Column.index_addPosting, hc₁, Column.index_appendValue]
        rfl
    rw [Column.adjust_of_index_none hnone 0 true]
    trivial
  obtain ⟨_, cs, hcs⟩ := hnothing.returns
  have hlive : s₁.markLive 0 = .ok () (s₁.withColumns cs) := by
    rw [MetadataStore.markLive, hcs]
    rfl
  have h₂ := h₁.markLive Column.invariant_ok (i := 0) rfl rfl hlive
  have hstep₂ : step ⟨s₁, [⟨.pending, [attrText text, attrNull], []⟩]⟩ (.markLive 0) =
      ⟨s₁.withColumns cs, [⟨.live, [attrText text, attrNull], []⟩]⟩ := by
    rw [step, MetadataStore.perform, hlive]
    rfl
  have hrun : (published text).foldl step noDocuments =
      ⟨s₁.withColumns cs, [⟨.live, [attrText text, attrNull], []⟩]⟩ := by
    rw [published, List.foldl_cons, ← hrec, hstep₁, List.foldl_cons, hstep₂]
    rfl
  have hfits₂ : (s₁.withColumns cs).Fits := by
    intro c hc
    obtain ⟨a, ha⟩ := List.getElem?_of_mem hc
    obtain ⟨c', hc', hadj⟩ := (forColumns_ok hcs).2 a c ha
    have := Column.dict_adjust c' 0 true
    rw [hadj] at this
    exact this ▸ hfits₁ c' (List.mem_of_getElem? hc')
  refine ⟨⟨⟨?_, ?_, ?_⟩, ⟨?_, ?_, ?_⟩, trivial⟩, by rw [hrun], ?_⟩
  · simp [InOrder, Record.BoolsOk, attrText, attrNull]
  · rw [MetadataStore.perform, ← hrec, happend]
    trivial
  · rw [← hrec, hstep₁]
    exact hfits₁
  · rw [← hrec, hstep₁]
    exact ⟨_, rfl, rfl⟩
  · rw [← hrec, hstep₁, MetadataStore.perform, hlive]
    trivial
  · rw [← hrec, hstep₁, hstep₂]
    exact hfits₂
  · rw [hrun]
    have hlen : 0 < (s₁.withColumns cs).columns.length := by
      rw [h₂.columns]
      decide
    have hget := List.getElem?_eq_getElem hlen
    rw [MetadataStore.column_of_getElem hget]
    have hok := h₂.column 0 _ hget
    obtain ⟨spec, hspec, htype⟩ := h₂.types 0 _ hget
    cases hspec
    rw [hok.docLen htype]
    simp [Row.col, Row.isLive, Row.attr, Row.ofRecord, Row.attrsOf, documentSchema, hrec,
      Record.attr, tokenCount, AttrValue.carried, attrText, attrNull]

/-- A document of `2 ^ 32` tokens counts for none. -/
theorem miscounted_of_length {text : Bytes} (hlen : (tokenizeText text).length = 2 ^ 32) :
    Run.Along step (fun t op => InOrder t.rows op ∧ (t.store.perform t.deleted op).Returns ∧
      (t.step op).store.Fits) noDocuments (published text) ∧
    (((published text).foldl step noDocuments).store.column 0).totalDocLen ≠
      ((((published text).foldl step noDocuments).rows.filter Row.isLive).map fun r =>
        (tokenizeText (r.attr 0).text).length).sum := by
  obtain ⟨hrun, hrows, htotal⟩ := totalDocLen_published hlen.le
  refine ⟨hrun, ?_⟩
  rw [hrows, htotal, hlen]
  simp [Row.isLive, Row.attr, attrText, hlen]

/-- The token count of a text is cut to 32 bits. -/
theorem long_text_miscounted :
    Run.Along step (fun t op => InOrder t.rows op ∧ (t.store.perform t.deleted op).Returns ∧
      (t.step op).store.Fits) noDocuments (published (words (2 ^ 32))) ∧
    (((published (words (2 ^ 32))).foldl step noDocuments).store.column 0).totalDocLen ≠
      ((((published (words (2 ^ 32))).foldl step noDocuments).rows.filter Row.isLive).map fun r =>
        (tokenizeText (r.attr 0).text).length).sum :=
  miscounted_of_length ((congrArg List.length (tokenizeText_words _)).trans List.length_replicate)

end Tracked

end Metadata

end Vdb
