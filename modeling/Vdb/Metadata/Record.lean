import Vdb.Types
import Vdb.Exception

/-!
# Records

The values a caller attaches to a vector, the declared schema they are checked against, and
`tokenize_text`.  A string is its bytes.
-/

namespace Vdb

namespace Metadata

inductive AttrType where
  /-- Only ever a value; a schema never declares it. -/
  | null
  | int64
  | float64
  | bool
  /-- A string, stored as its code in a dictionary. -/
  | tag
  /-- A string, stored as the set of its terms. -/
  | text
  deriving DecidableEq

/-- The enumerator's value. -/
def AttrType.toByte : AttrType → UInt8
  | .null => 0
  | .int64 => 1
  | .float64 => 2
  | .bool => 3
  | .tag => 4
  | .text => 5

/-- The enumerator with this value.  A column of any other type is treated like one of type null:
it is none of the types the code asks for. -/
def AttrType.ofByte (b : ℕ) : AttrType :=
  [.null, .int64, .float64, .bool, .tag, .text].getD b .null

def typeName : AttrType → Bytes
  | .null => ascii "null"
  | .int64 => ascii "int64"
  | .float64 => ascii "float64"
  | .bool => ascii "bool"
  | .tag => ascii "tag"
  | .text => ascii "text"

/-- One declared attribute. -/
structure AttrSpec where
  name : Bytes
  type : AttrType := .int64
  /-- Keep a B+-tree for range predicates on the column. -/
  indexed : Bool := false
  deriving DecidableEq

/-- One attribute value at the API boundary. -/
structure AttrValue where
  type : AttrType := .null
  /-- Int64, Float64 or Bool: the eight bytes of the value. -/
  raw : UInt64 := 0
  /-- Tag or Text: the string. -/
  text : Bytes := []
  deriving DecidableEq

namespace AttrValue

def isNull (v : AttrValue) : Bool := v.type = .null

def asBool (v : AttrValue) : Bool := v.raw ≠ 0

/-- The value with the fields its type does not carry blanked. -/
def carried (v : AttrValue) : AttrValue :=
  match v.type with
  | .null => {}
  | .tag => { type := .tag, text := v.text }
  | .text => { type := .text, text := v.text }
  | type => { type, raw := v.raw }

@[simp] theorem type_carried (v : AttrValue) : v.carried.type = v.type := by
  unfold carried
  split
  all_goals simp_all

@[simp] theorem isNull_carried (v : AttrValue) : v.carried.isNull = v.isNull := by
  unfold isNull
  rw [type_carried]

@[simp] theorem carried_carried (v : AttrValue) : v.carried.carried = v.carried := by
  unfold carried
  cases v.type <;> rfl

theorem carried_null {v : AttrValue} (hv : v.isNull = true) : v.carried = {} := by
  unfold carried
  rw [of_decide_eq_true hv]

theorem text_carried {v : AttrValue} (hv : v.type = .tag ∨ v.type = .text) :
    v.carried.text = v.text := by
  unfold carried
  rcases hv with h | h <;> rw [h]

theorem raw_carried {v : AttrValue} (hnull : v.type ≠ .null) (htag : v.type ≠ .tag)
    (htext : v.type ≠ .text) : v.carried.raw = v.raw := by
  unfold carried
  split <;> first | contradiction | rfl

end AttrValue

def attrNull : AttrValue := {}

def attrInt (v : Int64) : AttrValue := { type := .int64, raw := v.toUInt64 }

/-- The value with these bits. -/
def attrFloat (bits : UInt64) : AttrValue := { type := .float64, raw := bits }

def attrBool (b : Bool) : AttrValue := { type := .bool, raw := if b then 1 else 0 }

def attrTag (s : Bytes) : AttrValue := { type := .tag, text := s }

def attrText (s : Bytes) : AttrValue := { type := .text, text := s }

/-- The metadata attached to one vector: the attributes by position, or none for all null, and an
opaque payload. -/
structure Record where
  attrs : List AttrValue := []
  payload : Bytes := []
  deriving DecidableEq

namespace Record

/-- The value a row takes for attribute `a`: null for the empty shorthand. -/
def attr (rec : Record) (a : ℕ) : AttrValue := rec.attrs.getD a attrNull

end Record

/-! ### Tokens -/

/-- `std::isalnum` in the C locale. -/
def isAlnum (ch : UInt8) : Bool :=
  (48 ≤ ch && ch ≤ 57) || (65 ≤ ch && ch ≤ 90) || (97 ≤ ch && ch ≤ 122)

/-- `std::tolower` in the C locale. -/
def toLower (ch : UInt8) : UInt8 := if 65 ≤ ch && ch ≤ 90 then ch + 32 else ch

/-- Complete the current token. -/
def flushToken (out : List Bytes) (cur : Bytes) : List Bytes :=
  if cur = [] then out else out ++ [cur]

/-- One byte of `tokenize_text`: the tokens so far and the current one. -/
def tokenizeByte (s : List Bytes × Bytes) (ch : UInt8) : List Bytes × Bytes :=
  if isAlnum ch then (s.1, s.2 ++ [toLower ch]) else (flushToken s.1 s.2, [])

def tokenizeText (s : Bytes) : List Bytes :=
  let (out, cur) := s.foldl tokenizeByte ([], [])
  flushToken out cur

/-! ### Checking a record against a schema -/

/-- The loop of `validate` over the attributes. -/
def validateAttrs : List AttrSpec → List AttrValue → Except Exn Unit
  | spec :: schema, v :: attrs =>
    if v.isNull ∨ v.type = spec.type then validateAttrs schema attrs
    else .error (.invalidArgument (ascii "attribute '" ++ spec.name ++ ascii "' expects " ++
      typeName spec.type ++ ascii ", got " ++ typeName v.type))
  | _, _ => .ok ()

/-- `MetadataStore::validate`. -/
def validate (schema : List AttrSpec) (rec : Record) : Except Exn Unit :=
  if rec.attrs = [] then .ok ()
  else if rec.attrs.length ≠ schema.length then
    .error (.invalidArgument (ascii "metadata arity mismatch: got " ++
      ascii (toString rec.attrs.length) ++ ascii ", schema declares " ++
      ascii (toString schema.length)))
  else validateAttrs schema rec.attrs

end Metadata

end Vdb
