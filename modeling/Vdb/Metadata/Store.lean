import Vdb.Metadata.Column

/-!
# The metadata store

`MetadataStore`: the columns of the declared schema and the payloads, all indexed by row, with the
byte image a snapshot holds of them.
-/

namespace Vdb

namespace Metadata

inductive Predicate.Kind where
  | eq
  | range
  deriving DecidableEq

/-- One filter condition on one attribute. -/
structure Predicate where
  attr : ℕ
  kind : Predicate.Kind
  /-- `Kind.eq`: the value to match. -/
  eq : AttrValue := attrNull
  /-- `Kind.range`: the inclusive bounds. -/
  lo : AttrValue := attrNull
  hi : AttrValue := attrNull

def predEq (attr : ℕ) (v : AttrValue) : Predicate := { attr, kind := .eq, eq := v }

def predRange (attr : ℕ) (lo hi : AttrValue) : Predicate := { attr, kind := .range, lo, hi }

structure ResolvedPredicate where
  predicate : Predicate
  /-- The live rows that match, or `none` for a range on a column without an index. -/
  allowlist : Option (List InternalId)

structure MetadataStore (ι : Type) where
  schema : List AttrSpec
  /-- Parallel to `schema`. -/
  columns : List (Column ι)
  payload : List Bytes
  rows : ℕ
  fingerprint : UInt64

/-- One byte of the FNV-1a hash. -/
def mix (h : UInt64) (byte : UInt8) : UInt64 := (h ^^^ byte.toUInt64) * 1099511628211

def computeFingerprint (schema : List AttrSpec) : UInt64 :=
  schema.foldl (fun h s =>
    let h := mix (s.name.foldl mix h) 0
    mix (mix h s.type.toByte) (if s.indexed then 1 else 0)) 1469598103934665603

/-- The checks of the constructor, attribute by attribute. -/
def checkSchema : List AttrSpec → Except Exn Unit
  | [] => .ok ()
  | s :: schema =>
    if s.type = .null then
      .error (.invalidArgument (ascii "attribute '" ++ s.name ++ ascii "' declared with type null"))
    else if s.indexed ∧ s.type ≠ .int64 ∧ s.type ≠ .float64 then
      .error (.invalidArgument (ascii "attribute '" ++ s.name ++ ascii "' is indexed but " ++
        typeName s.type ++
        ascii " columns are not indexable (Tag/Bool get a postings list unconditionally)"))
    else checkSchema schema

/-- A loop over the columns, from number `a` on, that an exception ends. -/
def forColumns {ι : Type} (f : ℕ → Column ι → Outcome (Column ι) Unit) :
    ℕ → List (Column ι) → Outcome (List (Column ι)) Unit
  | _, [] => .ok () []
  | a, c :: cs =>
    match f a c with
    | .ok _ c => (forColumns f (a + 1) cs).mapState (c :: ·)
    | .error e c => .error e (c :: cs)

/-! ### Byte images -/

/-- `put_string` and `put_bytes`. -/
def putBytes (s : Bytes) : Bytes := putNat 8 s.length ++ s

/-- The exception of a read past the end. -/
def truncated : Exn := .runtimeError (ascii "snapshot truncated")

/-- `Reader::get` of an unsigned number of `w` bytes. -/
def getNumber (w : ℕ) : Reader Exn ℕ := Reader.nat truncated w

/-- `get_string` and `get_bytes`. -/
def getBytes : Reader Exn Bytes := do
  let n ← getNumber 8
  Reader.take truncated n

namespace Column

variable {ι : Type} (c : Column ι)

def serialize : Bytes :=
  [c.type.toByte] ++ (putNat 8 c.data.length ++ (c.data.flatMap (fun v => putNat 8 v.toNat) ++
    (c.present.flatMap (fun p => [if p then 1 else 0]) ++
    (putNat 8 c.dict.length ++ (c.dict.flatMap putBytes ++
    if c.type = .text then putNat 8 c.rawText.length ++ c.rawText.flatMap putBytes else [])))))

/-- The `codes` of a dictionary that has been read: the first code of a string stays. -/
def codesOfDict (dict : List Bytes) : Bytes → Option ℕ :=
  dict.zipIdx.foldl (fun codes e =>
    if (codes e.1).isSome then codes else Function.update codes e.1 (some (e.2 % 2 ^ 32)))
    fun _ => none

/-- Rebuild the terms of row `i` from its text. -/
def reintern (c : Column ι) (i : InternalId) : Column ι :=
  if ¬ c.isPresent i then c
  else
    let (c', terms, docLen) := c.internTerms (c.rawText.getD i [])
    { c' with textTerms := c'.textTerms.set i terms, docLen := c'.docLen.set i docLen }

/-- The part of `deserialize` that only a Text column has. -/
def deserializeText : Reader Exn (Column ι) := do
  let n ← getNumber 8
  let rawText ← Reader.many getBytes n
  let c := { c with rawText, textTerms := List.replicate n [], docLen := List.replicate n 0 }
  pure ((List.range n).foldl reintern c)

/-- Size the counts and postings for `rebuild_derived_state`. -/
def sizeDerived : Column ι :=
  match c.type with
  | .tag | .text => { c with
      count := List.replicate c.dict.length 0, postings := List.replicate c.dict.length [] }
  | .bool => { c with count := [0, 0], postings := [[], []] }
  | _ => { c with count := [], postings := [] }

def deserialize : Reader Exn (Column ι) := do
  let type ← getNumber 1
  let n ← getNumber 8
  let data ← Reader.many (getNumber 8) n
  let present ← Reader.many (getNumber 1) n
  let nDict ← getNumber 8
  let dict ← Reader.many getBytes nDict
  let c := { c with
    type := AttrType.ofByte type
    data := data.map UInt64.ofNat
    present := present.map fun p => p ≠ 0
    dict
    codes := codesOfDict dict }
  let c ← if c.type = .text then c.deserializeText else pure c
  pure c.sizeDerived

/-- The columns of a store, read one after the other. -/
def deserializeAll : List (Column ι) → Reader Exn (List (Column ι))
  | [] => pure []
  | c :: cs => do
    let c ← c.deserialize
    let cs ← deserializeAll cs
    pure (c :: cs)

end Column

namespace MetadataStore

variable {ι : Type} [ColumnIndex ι] (s : MetadataStore ι)

def new (schema : List AttrSpec) : Except Exn (MetadataStore ι) :=
  match checkSchema schema with
  | .error e => .error e
  | .ok _ => .ok
    { schema, columns := schema.map Column.new, payload := [], rows := 0
      fingerprint := computeFingerprint schema }

/-- `columns_[a]`. -/
def column (a : ℕ) : Column ι := s.columns.getD a {}

/-- The store with what a loop over its columns leaves of them. -/
def withColumns (columns : List (Column ι)) : MetadataStore ι := { s with columns }

def appendRow (rec : Record) : Outcome (MetadataStore ι) Unit :=
  match validate s.schema rec with
  | .error e => .error e s
  | .ok _ =>
    let columns := s.columns.mapIdx fun a c => c.appendValue (rec.attr a)
    .ok () { s with
      columns := columns.map fun c => c.addPosting s.rows
      payload := s.payload ++ [rec.payload]
      rows := s.rows + 1 }

def appendRowCopy (src : InternalId) : MetadataStore ι :=
  let columns := s.columns.map fun c => c.appendCopy src
  { s with
    columns := columns.map fun c => c.addPosting s.rows
    payload := s.payload ++ [s.payload.getD src []]
    rows := s.rows + 1 }

def setRow (id : InternalId) (rec : Record) : Outcome (MetadataStore ι) Unit :=
  match validate s.schema rec with
  | .error e => .error e s
  | .ok _ =>
    ((forColumns (fun a c => c.setRow id (rec.attr a)) 0 s.columns).mapState s.withColumns).andThen
      fun _ s => .ok () { s with payload := s.payload.set id rec.payload }

def markLive (id : InternalId) : Outcome (MetadataStore ι) Unit :=
  (forColumns (fun _ c => c.adjust id true) 0 s.columns).mapState s.withColumns

def markDead (id : InternalId) : Outcome (MetadataStore ι) Unit :=
  (forColumns (fun _ c => c.adjust id false) 0 s.columns).mapState s.withColumns

/-- The second loop of `rebuild_derived_state`. -/
def rebuildRows (deleted : List Bool) :
    List InternalId → List (Column ι) → Outcome (List (Column ι)) Unit
  | [], cs => .ok () cs
  | id :: ids, cs =>
    if deleted.getD id false then rebuildRows deleted ids cs
    else (forColumns (fun _ c => c.rebuildRow id) 0 cs).andThen fun _ cs =>
      rebuildRows deleted ids cs

def rebuildDerivedState (deleted : List Bool) : Outcome (MetadataStore ι) Unit :=
  (rebuildRows deleted (List.range s.rows) (s.columns.map Column.clearDerived)).mapState
    s.withColumns

def permute (live : List InternalId) : Outcome (MetadataStore ι) Unit :=
  ((forColumns (fun _ c => c.permute live) 0 s.columns).mapState s.withColumns).andThen
    fun _ s => .ok ()
      { s with payload := live.map fun src => s.payload.getD src [], rows := live.length }

def clearRows : MetadataStore ι :=
  { s with columns := s.columns.map Column.clearRows, payload := [], rows := 0 }

def get (id : InternalId) (attr : ℕ) : AttrValue := (s.column attr).get id

def getRow (id : InternalId) : Record :=
  { attrs := s.columns.map fun c => c.get id, payload := s.payload.getD id [] }

def tagCode (attr : ℕ) (str : Bytes) : Option ℕ := (s.column attr).codes str

/-- The live rows where attribute `attr` has the code, or the term with this code. -/
def count (attr code : ℕ) : ℕ := (s.column attr).count.getD code 0

def postings (attr code : ℕ) : List InternalId := (s.column attr).postings.getD code []

def textLiveCount (attr : ℕ) : ℕ := (s.column attr).liveDocCount

/-- `static_cast<bool>` of `deleted[id]`, for an id in range. -/
def isLive (deleted : List Bool) (id : InternalId) : Bool :=
  decide (id < deleted.length) && !deleted.getD id false

/-- The name of an attribute in an error text. -/
def attrName (attr : ℕ) : Bytes := ((s.schema[attr]?).map AttrSpec.name).getD []

def resolve (pred : Predicate) (deleted : List Bool) : Except Exn ResolvedPredicate :=
  let c := s.column pred.attr
  match pred.kind with
  | .eq =>
    if c.type ≠ .tag ∧ c.type ≠ .bool then
      .error (.invalidArgument (ascii "Predicate::Eq on attribute '" ++ s.attrName pred.attr ++
        ascii "': " ++ typeName c.type ++
        ascii " columns don't support equality predicates (only Tag/Bool)"))
    else if pred.eq.type ≠ c.type then
      .error (.invalidArgument (ascii "Predicate::Eq value type does not match column '" ++
        s.attrName pred.attr ++ ascii "' (expects " ++ typeName c.type ++ ascii ")"))
    else
      let code := if c.type = .tag then s.tagCode pred.attr pred.eq.text
        else some (if pred.eq.asBool then 1 else 0)
      match code with
      | none => .ok ⟨pred, some []⟩
      | some code => .ok ⟨pred, some ((s.postings pred.attr code).filter (isLive deleted))⟩
  | .range =>
    if c.type ≠ .int64 ∧ c.type ≠ .float64 then
      .error (.invalidArgument (ascii "Predicate::Range on attribute '" ++ s.attrName pred.attr ++
        ascii "': " ++ typeName c.type ++
        ascii " columns don't support range predicates (only Int64/Float64)"))
    else if pred.lo.type ≠ c.type ∨ pred.hi.type ≠ c.type then
      .error (.invalidArgument (ascii "Predicate::Range bound type does not match column '" ++
        s.attrName pred.attr ++ ascii "' (expects " ++ typeName c.type ++ ascii ")"))
    else
      .ok ⟨pred, c.index.map fun t =>
        ColumnIndex.range t (sortableKey c.type pred.lo.raw) (sortableKey c.type pred.hi.raw)⟩

def serialize : Bytes :=
  putNat 8 s.fingerprint.toNat ++ (putNat 8 s.rows ++ (putNat 8 s.columns.length ++
    (s.columns.flatMap Column.serialize ++
    (putNat 8 s.payload.length ++ s.payload.flatMap putBytes))))

def deserialize : Reader Exn (MetadataStore ι) := do
  let fp ← getNumber 8
  if fp ≠ s.fingerprint.toNat then
    throw (.runtimeError (ascii "snapshot metadata schema mismatch"))
  let rows ← getNumber 8
  let nCols ← getNumber 8
  if nCols ≠ s.columns.length then
    throw (.runtimeError (ascii "snapshot metadata column count mismatch"))
  let columns ← Column.deserializeAll s.columns
  let nPay ← getNumber 8
  let payload ← Reader.many getBytes nPay
  pure { s with rows, columns, payload }

end MetadataStore

end Metadata

end Vdb
