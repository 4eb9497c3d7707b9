import Vdb.Metadata.Record
import Mathlib.Logic.Function.Basic

/-!
# Columns

One attribute of every row: the parallel arrays of `MetadataStore::Column`, indexed by row, and
what the operations of the store do to a single column.

* A dictionary code is `dict.size()` cast to 32 bits, and so is the token count of a text.  The
  counters are natural numbers: a column has at most as many rows as there are internal ids, so
  they cannot overflow, and `Column.Ok.counted` rules out that they fall below zero.
* The B+-tree of an indexed column is any `ColumnIndex`; nothing in the other arrays depends on it.
-/

namespace Vdb

namespace Metadata

/-- A secondary index on the pairs of a sortable key and a row. -/
class ColumnIndex (ι : Type) where
  empty : ι
  /-- Throws when the index is full. -/
  insert : ι → UInt64 → InternalId → Outcome ι Unit
  remove : ι → UInt64 → InternalId → ι
  /-- The rows with a key between the two bounds. -/
  range : ι → UInt64 → UInt64 → List InternalId

structure Column (ι : Type) where
  type : AttrType := .int64
  /-- By row: the raw value, or the code of a Tag. -/
  data : List UInt64 := []
  /-- By row: the null bitmap. -/
  present : List Bool := []
  /-- Tag and Text: the string of every code. -/
  dict : List Bytes := []
  /-- Tag and Text: the code of every string in `dict`. -/
  codes : Bytes → Option ℕ := fun _ => none
  /-- Tag, Bool and Text: the number of live rows with each code. -/
  count : List ℕ := []
  /-- Tag, Bool and Text: the rows ever written with each code. -/
  postings : List (List InternalId) := []
  /-- Text, by row: the codes of its terms, each once. -/
  textTerms : List (List ℕ) := []
  /-- Text, by row: the number of its tokens. -/
  docLen : List ℕ := []
  /-- Text: live rows with a value. -/
  liveDocCount : ℕ := 0
  /-- Text: the sum of `docLen` over those rows. -/
  totalDocLen : ℕ := 0
  /-- Text, by row: the string as written. -/
  rawText : List Bytes := []
  /-- Indexed Int64 and Float64. -/
  index : Option ι := none

/-- `sortable_bits` of the value with these raw bits, for an Int64 or a Float64 column. -/
def sortableKey (type : AttrType) (raw : UInt64) : UInt64 :=
  if type = .int64 then raw ^^^ 0x8000000000000000
  else raw ^^^ (if raw >>> 63 ≠ 0 then 0xFFFFFFFFFFFFFFFF else 0x8000000000000000)

/-- Count up or down. -/
def bump (increment : Bool) (n : ℕ) : ℕ := if increment then n + 1 else n - 1

namespace Column

variable {ι : Type} [ColumnIndex ι] (c : Column ι) (id : InternalId)

/-- A column without rows, as the constructor of the store makes it. -/
def new (spec : AttrSpec) : Column ι where
  type := spec.type
  count := if spec.type = .bool then [0, 0] else []
  postings := if spec.type = .bool then [[], []] else []
  index := if spec.indexed then some ColumnIndex.empty else none

/-- The row has a value here. -/
def isPresent : Bool := c.present.getD id false

/-- The codes the row is counted and posted under: for a Tag or a Bool the one in `data`, for a
Text those of its terms. -/
def codesAt : List ℕ :=
  match c.type with
  | .text => c.textTerms.getD id []
  | .tag | .bool => [(c.data.getD id 0).toNat % 2 ^ 32]
  | _ => []

def intern (s : Bytes) : Column ι × ℕ :=
  match c.codes s with
  | some code => (c, code)
  | none =>
    let code := c.dict.length % 2 ^ 32
    ({ c with
      dict := c.dict ++ [s]
      codes := Function.update c.codes s (some code)
      count := c.count ++ [0]
      postings := c.postings ++ [[]] }, code)

/-- One round of the loop of `intern_terms_`; a code seen before is not added again. -/
def internToken (s : Column ι × List ℕ) (tok : Bytes) : Column ι × List ℕ :=
  let (c, code) := s.1.intern tok
  (c, if code ∈ s.2 then s.2 else s.2 ++ [code])

/-- The term codes of a text, and its number of tokens. -/
def internTerms (text : Bytes) : Column ι × List ℕ × ℕ :=
  let tokens := tokenizeText text
  let (c, codes) := tokens.foldl internToken (c, [])
  (c, codes, tokens.length % 2 ^ 32)

def adjustCount (increment : Bool) : Column ι :=
  if ¬ c.isPresent id then c
  else
    let count := (c.codesAt id).foldl (fun l code => l.modify code (bump increment)) c.count
    let c := { c with count }
    if c.type = .text then
      { c with
        liveDocCount := bump increment c.liveDocCount
        totalDocLen :=
          if increment then c.totalDocLen + c.docLen.getD id 0
          else c.totalDocLen - c.docLen.getD id 0 }
    else c

def addPosting : Column ι :=
  if ¬ c.isPresent id then c
  else { c with
    postings := (c.codesAt id).foldl (fun l code => l.modify code fun p => p ++ [id]) c.postings }

def adjustIndex (increment : Bool) : Outcome (Column ι) Unit :=
  match c.index with
  | none => .ok () c
  | some t =>
    if ¬ c.isPresent id then .ok () c
    else
      let key := sortableKey c.type (c.data.getD id 0)
      if increment then
        (ColumnIndex.insert t key id).mapState fun t => { c with index := some t }
      else .ok () { c with index := some (ColumnIndex.remove t key id) }

/-- `adjust_count_`, then `adjust_index_`. -/
def adjust (increment : Bool) : Outcome (Column ι) Unit :=
  (c.adjustCount id increment).adjustIndex id increment

/-- What `append_row` does to the column before it posts the row. -/
def appendValue (v : AttrValue) : Column ι :=
  if v.isNull then
    let c := { c with data := c.data ++ [0], present := c.present ++ [false] }
    if c.type = .text then
      { c with
        textTerms := c.textTerms ++ [[]], docLen := c.docLen ++ [0], rawText := c.rawText ++ [[]] }
    else c
  else
    let c :=
      if c.type = .text then
        let (c, terms, docLen) := c.internTerms v.text
        { c with
          data := c.data ++ [0]
          rawText := c.rawText ++ [v.text]
          textTerms := c.textTerms ++ [terms]
          docLen := c.docLen ++ [docLen] }
      else if v.type = .tag then
        let (c, code) := c.intern v.text
        { c with data := c.data ++ [UInt64.ofNat code] }
      else { c with data := c.data ++ [v.raw] }
    { c with present := c.present ++ [true] }

/-- What `append_row_copy` does to the column before it posts the row. -/
def appendCopy (src : InternalId) : Column ι :=
  let c := { c with
    data := c.data ++ [c.data.getD src 0], present := c.present ++ [c.present.getD src false] }
  if c.type = .text then
    { c with
      textTerms := c.textTerms ++ [c.textTerms.getD src []]
      docLen := c.docLen ++ [c.docLen.getD src 0]
      rawText := c.rawText ++ [c.rawText.getD src []] }
  else c

/-- What `set_row` does to the column between dropping the old value and adding the new one. -/
def setValue (v : AttrValue) : Column ι :=
  if v.isNull then
    let c := { c with data := c.data.set id 0, present := c.present.set id false }
    if c.type = .text then
      { c with
        textTerms := c.textTerms.set id [], docLen := c.docLen.set id 0
        rawText := c.rawText.set id [] }
    else c
  else
    let c :=
      if c.type = .text then
        let (c, terms, docLen) := c.internTerms v.text
        { c with
          rawText := c.rawText.set id v.text
          textTerms := c.textTerms.set id terms
          docLen := c.docLen.set id docLen }
      else if v.type = .tag then
        let (c, code) := c.intern v.text
        { c with data := c.data.set id (UInt64.ofNat code) }
      else { c with data := c.data.set id v.raw }
    { c with present := c.present.set id true }

/-- One round of the loop of `set_row`. -/
def setRow (v : AttrValue) : Outcome (Column ι) Unit :=
  (c.adjust id false).andThen fun _ c =>
    ((c.setValue id v).adjust id true).andThen fun _ c => .ok () (c.addPosting id)

/-- Empty every posting list of a column that has them. -/
def clearPostings : Column ι :=
  if c.type = .tag ∨ c.type = .bool ∨ c.type = .text then
    { c with postings := c.postings.map fun _ => [] }
  else c

/-- A fresh index for an indexed column. -/
def clearIndex : Column ι := { c with index := c.index.map fun _ => ColumnIndex.empty }

/-- The first loop of `rebuild_derived_state`. -/
def clearDerived : Column ι :=
  { c.clearPostings with
    count := if c.type = .tag ∨ c.type = .bool ∨ c.type = .text then c.count.map fun _ => 0
      else c.count
    liveDocCount := if c.type = .text then 0 else c.liveDocCount
    totalDocLen := if c.type = .text then 0 else c.totalDocLen
    index := c.index.map fun _ => ColumnIndex.empty }

/-- One round of the loop of `rebuild_derived_state` for a live row. -/
def rebuildRow : Outcome (Column ι) Unit :=
  (c.adjust id true).andThen fun _ c => .ok () (c.addPosting id)

/-- The rows `live` in this order, without postings or index. -/
def keepRows (live : List InternalId) : Column ι :=
  let c := { c with
    data := live.map fun src => c.data.getD src 0
    present := live.map fun src => c.present.getD src false }
  if c.type = .text then
    { c with
      textTerms := live.map fun src => c.textTerms.getD src []
      docLen := live.map fun src => c.docLen.getD src 0
      rawText := live.map fun src => c.rawText.getD src [] }
  else c

/-- The inserts of `permute` into a fresh index, from row `id` on. -/
def fillIndex : ℕ → InternalId → Column ι → Outcome (Column ι) Unit
  | 0, _, c => .ok () c
  | n + 1, id, c => (c.adjustIndex id true).andThen fun _ c => fillIndex n (id + 1) c

/-- One round of the loop of `permute`. -/
def permute (live : List InternalId) : Outcome (Column ι) Unit :=
  let c := (c.keepRows live).clearPostings
  fillIndex live.length 0 ((List.range live.length).foldl addPosting c).clearIndex

/-- One round of the loop of `clear_rows`. -/
def clearRows : Column ι :=
  let c := { c with data := [], present := [] }
  let c := if c.type = .text then
      { c with textTerms := [], docLen := [], rawText := [], liveDocCount := 0, totalDocLen := 0 }
    else c
  { c with count := c.count.map fun _ => 0, postings := c.postings.map fun _ => [] }.clearIndex

/-- `MetadataStore::get` in this column. -/
def get : AttrValue :=
  if ¬ c.isPresent id then attrNull
  else if c.type = .tag then
    { attrTag (c.dict.getD (c.data.getD id 0).toNat []) with raw := c.data.getD id 0 }
  else if c.type = .text then attrText (c.rawText.getD id [])
  else { type := c.type, raw := c.data.getD id 0 }

end Column

end Metadata

end Vdb
