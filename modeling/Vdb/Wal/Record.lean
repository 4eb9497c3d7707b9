import Vdb.Metadata.Store

/-!
# Records of the write-ahead log

The frame of a `WalRecord`, `[length][crc][body]`, and how it is read back.

* `decodeRecord_encodeRecord` : a frame is read back off the front of any bytes.
* `decodeRecord_take` : a part of a frame is incomplete.
-/

namespace Vdb

open Metadata

/-! ### The checksum -/

/-- One round of the table: shift, and add the polynomial if a bit falls out. -/
def crcRound (crc : UInt32) : UInt32 :=
  if crc &&& 1 ≠ 0 then (crc >>> 1) ^^^ 0x82F63B78 else crc >>> 1

/-- `kTable.t[i]`. -/
def crcTable (i : UInt32) : UInt32 := crcRound^[8] i

def crc32c (data : Bytes) : UInt32 :=
  data.foldl (fun crc b => crcTable ((crc ^^^ b.toUInt32) &&& 0xFF) ^^^ (crc >>> 8)) 0xFFFFFFFF
    ^^^ 0xFFFFFFFF

/-! ### Records -/

inductive WalRecordType where
  | insert
  | delete
  | update
  | checkpoint
  /-- Metadata only; carries no vector. -/
  | setMeta
  /-- A byte that is no enumerator. -/
  | unknown (b : ℕ) (h : b = 0 ∨ 5 < b)
  deriving DecidableEq

namespace WalRecordType

def toByte : WalRecordType → ℕ
  | .insert => 1
  | .delete => 2
  | .update => 3
  | .checkpoint => 4
  | .setMeta => 5
  | .unknown b _ => b

def ofByte (b : ℕ) : WalRecordType :=
  if h : b = 0 ∨ 5 < b then .unknown b h
  else if b = 1 then .insert
  else if b = 2 then .delete
  else if b = 3 then .update
  else if b = 4 then .checkpoint
  else .setMeta

@[simp] theorem ofByte_toByte (t : WalRecordType) : ofByte t.toByte = t := by
  cases t with
  | unknown b h => rw [toByte, ofByte, dif_pos h]
  | _ => rfl

def carriesVector (t : WalRecordType) : Bool := t = .insert || t = .update

def carriesMeta (t : WalRecordType) : Bool := t.carriesVector || t = .setMeta

end WalRecordType

/-- The vector is set only for an insert or an update, the metadata for these and `setMeta`. -/
structure WalRecord where
  type : WalRecordType
  lsn : ℕ
  extId : ExternalId
  vec : List UInt32 := []
  metadata : Record := {}
  deriving DecidableEq

/-! ### Writing -/

/-- One attribute of `put_meta`. -/
def putAttr (a : AttrValue) : Bytes :=
  putNat 1 a.type.toByte.toNat ++
    match a.type with
    | .null => []
    | .tag => putNat 4 a.text.length ++ a.text
    | .text => putNat 4 a.text.length ++ a.text
    | _ => putNat 8 a.raw.toNat

def putMeta (m : Record) : Bytes :=
  putNat 4 m.attrs.length ++ (m.attrs.flatMap putAttr ++ (putNat 4 m.payload.length ++ m.payload))

def putVector (v : List UInt32) : Bytes := putNat 4 v.length ++ v.flatMap fun x => putNat 4 x.toNat

def encodeBody (r : WalRecord) : Bytes :=
  putNat 1 r.type.toByte ++ (putNat 8 r.lsn ++ (putNat 8 r.extId ++
    ((if r.type.carriesVector then putVector r.vec else []) ++
      if r.type.carriesMeta then putMeta r.metadata else [])))

def encodeRecord (r : WalRecord) : Bytes :=
  let body := encodeBody r
  let length := putNat 4 body.length
  length ++ (putNat 4 (crc32c (length ++ body)).toNat ++ body)

/-! ### Reading -/

def badAttributeType : Exn := .runtimeError (ascii "wal: bad attribute type")

def getText : Reader Exn Bytes := do
  let len ← getNumber 4
  Reader.take truncated len

/-- One attribute of `get_meta`. -/
def getAttr : Reader Exn AttrValue := do
  let type ← getNumber 1
  if 5 < type then throw badAttributeType
  match AttrType.ofByte type with
  | .null => pure {}
  | .tag => AttrValue.mk .tag 0 <$> getText
  | .text => AttrValue.mk .text 0 <$> getText
  | type => (fun raw => AttrValue.mk type (UInt64.ofNat raw) []) <$> getNumber 8

def getMeta : Reader Exn Record := do
  let n ← getNumber 4
  let attrs ← Reader.many getAttr n
  let payload ← getText
  pure { attrs, payload }

def getVector : Reader Exn (List UInt32) := do
  let n ← getNumber 4
  let xs ← Reader.many (getNumber 4) n
  pure (xs.map UInt32.ofNat)

/-- Read a field that only some types of record carry. -/
def getIf {α : Type} (carries : Bool) (absent : α) (r : Reader Exn α) : Reader Exn α :=
  if carries then r else pure absent

def getBody : Reader Exn WalRecord := do
  let type ← getNumber 1
  let lsn ← getNumber 8
  let extId ← getNumber 8
  let type := WalRecordType.ofByte type
  let vec ← getIf type.carriesVector [] getVector
  let metadata ← getIf type.carriesMeta {} getMeta
  pure { type, lsn, extId, vec, metadata }

inductive DecodeStatus where
  | ok (r : WalRecord) (consumed : ℕ)
  /-- Fewer bytes than a full frame. -/
  | incomplete
  | badCrc
  deriving DecidableEq

/-- The record of a frame with a right checksum. -/
def decodeBody (length : ℕ) (body : Bytes) : DecodeStatus :=
  if length < 17 then .badCrc
  else
    match getBody body with
    | .error _ => .badCrc
    | .ok (r, _) => .ok r (8 + length)

def decodeRecord (data : Bytes) : DecodeStatus :=
  if data.length < 8 then .incomplete
  else
    let length := getNat (data.take 4)
    let storedCrc := getNat ((data.drop 4).take 4)
    if data.length < 8 + length then .incomplete
    else
      let body := (data.drop 8).take length
      if (crc32c (data.take 4 ++ body)).toNat ≠ storedCrc then .badCrc
      else decodeBody length body

/-! ### Round trip -/

namespace WalRecord

/-- What the frame of the record carries. -/
def carried (r : WalRecord) : WalRecord :=
  { r with
    vec := if r.type.carriesVector then r.vec else []
    metadata := if r.type.carriesMeta then
      ⟨r.metadata.attrs.map AttrValue.carried, r.metadata.payload⟩ else {} }

/-- The numbers of the record have 64 bits, and its sizes 32. -/
structure Fits (r : WalRecord) : Prop where
  type : r.type.toByte < 2 ^ 8
  lsn : r.lsn < 2 ^ 64
  extId : r.extId < 2 ^ 64
  vec : r.vec.length < 2 ^ 32
  attrs : r.metadata.attrs.length < 2 ^ 32
  texts : ∀ a ∈ r.metadata.attrs, a.text.length < 2 ^ 32
  payload : r.metadata.payload.length < 2 ^ 32
  body : (encodeBody r).length < 2 ^ 32

instance (r : WalRecord) : Decidable r.Fits :=
  decidable_of_iff (r.type.toByte < 2 ^ 8 ∧ r.lsn < 2 ^ 64 ∧ r.extId < 2 ^ 64 ∧
      r.vec.length < 2 ^ 32 ∧ r.metadata.attrs.length < 2 ^ 32 ∧
      (∀ a ∈ r.metadata.attrs, a.text.length < 2 ^ 32) ∧ r.metadata.payload.length < 2 ^ 32 ∧
      (encodeBody r).length < 2 ^ 32)
    ⟨fun ⟨h1, h2, h3, h4, h5, h6, h7, h8⟩ => ⟨h1, h2, h3, h4, h5, h6, h7, h8⟩,
      fun h => ⟨h.type, h.lsn, h.extId, h.vec, h.attrs, h.texts, h.payload, h.body⟩⟩

end WalRecord

theorem reads_text {s : Bytes} (h : s.length < 2 ^ 32) :
    getText.Reads (putNat 4 s.length ++ s) s :=
  (Reader.reads_nat truncated (by simpa using h)).bind (Reader.reads_take truncated rfl)

theorem reads_attr {a : AttrValue} (h : a.text.length < 2 ^ 32) :
    getAttr.Reads (putAttr a) a.carried := by
  obtain ⟨type, raw, text⟩ := a
  have htype : (getNumber 1).Reads (putNat 1 type.toByte.toNat) type.toByte.toNat :=
    Reader.reads_nat truncated type.toByte.toNat_lt
  have hraw : ∀ t : AttrType, ((fun n => AttrValue.mk t (UInt64.ofNat n) []) <$> getNumber 8).Reads
      (putNat 8 raw.toNat) (AttrValue.mk t raw []) := fun t => by
    have hread := (Reader.reads_nat truncated (w := 8) raw.toNat_lt).map
      fun n => AttrValue.mk t (UInt64.ofNat n) []
    rwa [UInt64.ofNat_toNat] at hread
  unfold getAttr putAttr AttrValue.carried
  cases type with
  | null => exact htype.bind (Reader.reads_pure _)
  | tag => exact htype.bind ((reads_text h).map _)
  | text => exact htype.bind ((reads_text h).map _)
  | int64 => exact htype.bind (hraw .int64)
  | float64 => exact htype.bind (hraw .float64)
  | bool => exact htype.bind (hraw .bool)

theorem reads_meta {m : Record} (hattrs : m.attrs.length < 2 ^ 32)
    (htexts : ∀ a ∈ m.attrs, a.text.length < 2 ^ 32) (hpay : m.payload.length < 2 ^ 32) :
    getMeta.Reads (putMeta m) ⟨m.attrs.map AttrValue.carried, m.payload⟩ := by
  refine (Reader.reads_nat truncated (by simpa using hattrs)).bind ?_
  refine (Reader.reads_many fun a ha => reads_attr (htexts a ha)).bind ?_
  exact (reads_text hpay).bind_pure _

theorem reads_vector {v : List UInt32} (h : v.length < 2 ^ 32) :
    getVector.Reads (putVector v) v := by
  refine (Reader.reads_nat truncated (by simpa using h)).bind ?_
  have hmany : (Reader.many (getNumber 4) v.length).Reads
      (v.flatMap fun x => putNat 4 x.toNat) (v.map UInt32.toNat) :=
    Reader.reads_many fun x _ => Reader.reads_nat truncated x.toNat_lt
  have hback : (v.map UInt32.toNat).map UInt32.ofNat = v := by
    rw [List.map_map]
    exact (List.map_congr_left fun x _ => UInt32.ofNat_toNat).trans (List.map_id v)
  have hread := hmany.bind_pure (List.map UInt32.ofNat)
  rwa [hback] at hread

theorem reads_if {α : Type} (carries : Bool) (absent : α) {r : Reader Exn α} {bs : Bytes} {a : α}
    (h : r.Reads bs a) :
    (getIf carries absent r).Reads (if carries then bs else [])
    (if carries then a else absent) := by
  cases carries with
  | true => exact h
  | false => exact Reader.reads_pure absent

theorem reads_body {r : WalRecord} (h : r.Fits) : getBody.Reads (encodeBody r) r.carried := by
  refine (Reader.reads_nat truncated (by simpa using h.type)).bind ?_
  refine (Reader.reads_nat truncated (by simpa using h.lsn)).bind ?_
  refine (Reader.reads_nat truncated (by simpa using h.extId)).bind ?_
  rw [WalRecordType.ofByte_toByte, WalRecord.carried]
  refine (reads_if _ [] (reads_vector h.vec)).bind ?_
  exact (reads_if _ _ (reads_meta h.attrs h.texts h.payload)).bind_pure _

theorem length_encodeRecord (r : WalRecord) :
    (encodeRecord r).length = 8 + (encodeBody r).length := by
  unfold encodeRecord
  simp
  omega

theorem length_encodeBody (r : WalRecord) : 17 ≤ (encodeBody r).length := by
  unfold encodeBody
  simp
  omega

/-- The frame of a body, with a right checksum. -/
def frameOf (body : Bytes) : Bytes :=
  putNat 4 body.length ++ (putNat 4 (crc32c (putNat 4 body.length ++ body)).toNat ++ body)

theorem encodeRecord_eq (r : WalRecord) : encodeRecord r = frameOf (encodeBody r) := rfl

/-- What decides about a frame whose length is right. -/
theorem decodeRecord_parts {crc body : Bytes} (h : body.length < 2 ^ 32) (hcrc : crc.length = 4)
    (rest : Bytes) : decodeRecord (putNat 4 body.length ++ (crc ++ (body ++ rest))) =
      if (crc32c (putNat 4 body.length ++ body)).toNat ≠ getNat crc then .badCrc
      else decodeBody body.length body := by
  have hlen : getNat (putNat 4 body.length) = body.length := getNat_putNat_of_lt (by simpa using h)
  set length := putNat 4 body.length with hl
  have h4 : length.length = 4 := length_putNat ..
  have htake : (length ++ (crc ++ (body ++ rest))).take 4 = length := by
    rw [← h4, List.take_left]
  have hdrop : (length ++ (crc ++ (body ++ rest))).drop 4 = crc ++ (body ++ rest) := by
    rw [← h4, List.drop_left]
  have hcrc4 : (crc ++ (body ++ rest)).take 4 = crc := by
    rw [← hcrc, List.take_left]
  have hdrop8 : (length ++ (crc ++ (body ++ rest))).drop 8 = body ++ rest := by
    rw [show 8 = 4 + 4 from rfl, ← List.drop_drop, hdrop, ← hcrc, List.drop_left]
  unfold decodeRecord
  dsimp only
  rw [htake, hdrop, hcrc4, hdrop8, hlen, List.take_left, if_neg (by simp; omega),
    if_neg (by simp; omega)]

/-- A frame with a right checksum is as good as its body. -/
theorem decodeRecord_frameOf {body : Bytes} (h : body.length < 2 ^ 32) (rest : Bytes) :
    decodeRecord (frameOf body ++ rest) = decodeBody body.length body := by
  have hcrc : ∀ c : UInt32, getNat (putNat 4 c.toNat) = c.toNat := fun c =>
    getNat_putNat_of_lt c.toNat_lt
  rw [frameOf, List.append_assoc, List.append_assoc, decodeRecord_parts h (length_putNat ..), hcrc,
    if_neg (not_not.2 rfl)]

/-- A frame is read back off the front of any bytes. -/
theorem decodeRecord_encodeRecord {r : WalRecord} (h : r.Fits) (rest : Bytes) :
    decodeRecord (encodeRecord r ++ rest) = .ok r.carried (encodeRecord r).length := by
  have hbody := reads_body h []
  rw [List.append_nil] at hbody
  rw [length_encodeRecord, encodeRecord_eq, decodeRecord_frameOf h.body, decodeBody,
    if_neg (Nat.not_lt.2 (length_encodeBody r)), hbody]

/-- A part of a frame is incomplete. -/
theorem decodeRecord_take {r : WalRecord} (h : r.Fits) {k : ℕ} (hk : k < (encodeRecord r).length) :
    decodeRecord ((encodeRecord r).take k) = .incomplete := by
  have hlen : getNat (putNat 4 (encodeBody r).length) = (encodeBody r).length :=
    getNat_putNat_of_lt (by simpa using h.body)
  have hshort : ((encodeRecord r).take k).length = k := by
    rw [List.length_take, min_eq_left hk.le]
  unfold decodeRecord
  dsimp only
  by_cases h8 : ((encodeRecord r).take k).length < 8
  · rw [if_pos h8]
  · rw [hshort] at h8
    have htake : ((encodeRecord r).take k).take 4 = putNat 4 (encodeBody r).length := by
      rw [List.take_take, min_eq_left (by omega), encodeRecord]
      conv_lhs => rw [← length_putNat 4 (encodeBody r).length]
      exact List.take_left
    rw [length_encodeRecord] at hk
    rw [htake, hlen, hshort, if_neg h8, if_pos hk]

/-- What is decoded takes some bytes. -/
theorem decodeRecord_ok {data : Bytes} {r : WalRecord} {n : ℕ} (h : decodeRecord data = .ok r n) :
    0 < n ∧ n ≤ data.length := by
  unfold decodeRecord decodeBody at h
  dsimp only at h
  split_ifs at h with h8 hmore hcrc h17
  split at h
  · cases h
  · cases h
    omega

end Vdb
