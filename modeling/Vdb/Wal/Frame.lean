import Vdb.Wal.Record
import Mathlib.Data.List.Basic

/-!
# Which frames are accepted

The converse of the round trip of a `WalRecord`: what `decode_record` makes of bytes that no encoder
has written.

* `decodeRecord_roundTrip` : a record is read back off the front of any bytes, and no strict
  prefix of its frame is a frame.
* `onlyFrames_iff` : an accepted frame is that of the record returned, unless its checksum covers a
  type byte that is no enumerator, or bytes behind the last field.
-/

namespace Vdb

open Metadata

/-- The value `decode_record` leaves in `consumed`. -/
def DecodeStatus.consumed : DecodeStatus → ℕ
  | .ok _ n => n
  | .incomplete => 0
  | .badCrc => 0

/-- The type is one of the five enumerators. -/
def WalRecordType.Declared : WalRecordType → Prop
  | .unknown _ _ => False
  | _ => True

instance : DecidablePred WalRecordType.Declared
  | .unknown _ _ => .isFalse id
  | .insert => .isTrue trivial
  | .delete => .isTrue trivial
  | .update => .isTrue trivial
  | .checkpoint => .isTrue trivial
  | .setMeta => .isTrue trivial

/-- **Round trip.** -/
theorem decodeRecord_roundTrip (r : WalRecord) (h : r.Fits) :
    (∀ t, decodeRecord (encodeRecord r ++ t) = .ok r.carried (encodeRecord r).length) ∧
      ∀ bs, bs <+: encodeRecord r → bs ≠ encodeRecord r →
        decodeRecord bs = .incomplete ∧ (decodeRecord bs).consumed = 0 := by
  refine ⟨decodeRecord_encodeRecord h, fun bs hpre hne => ?_⟩
  have hlt : bs.length < (encodeRecord r).length :=
    lt_of_le_of_ne hpre.length_le fun hlen => hne (hpre.eq_of_length hlen)
  have hdecode : decodeRecord bs = .incomplete := by
    rw [List.prefix_iff_eq_take.1 hpre]
    exact decodeRecord_take h hlt
  rw [hdecode]
  exact ⟨rfl, rfl⟩

/-- An insert with a tag and a number. -/
theorem decodeRecord_roundTrip_insert :
    let r : WalRecord := { type := .insert, lsn := 7, extId := 3, vec := [5, 6]
                           metadata := ⟨[attrTag [97], attrInt (-1)], [1, 2]⟩ }
    (∀ t, decodeRecord (encodeRecord r ++ t) = .ok r.carried (encodeRecord r).length) ∧
      ∀ bs, bs <+: encodeRecord r → bs ≠ encodeRecord r →
        decodeRecord bs = .incomplete ∧ (decodeRecord bs).consumed = 0 :=
  decodeRecord_roundTrip _ (by decide +kernel)

/-! ### The fields that were read -/

theorem getText_ok {bs s rest : Bytes} (h : getText bs = .ok (s, rest)) :
    bs = putNat 4 s.length ++ s ++ rest ∧ s.length < 2 ^ 32 := by
  obtain ⟨n, mid, hn, h⟩ := Reader.bind_ok h
  obtain ⟨hbs, hlt⟩ := Reader.nat_ok hn
  obtain ⟨rfl, rfl⟩ := Reader.take_ok h
  exact ⟨hbs.trans (List.append_assoc ..).symm, hlt⟩

theorem getNumber8_ok {f : ℕ → AttrValue} {bs rest : Bytes} {v : AttrValue}
    (h : (f <$> getNumber 8) bs = .ok (v, rest)) :
    ∃ x : UInt64, f x.toNat = v ∧ bs = putNat 8 x.toNat ++ rest := by
  obtain ⟨n, hn, rfl⟩ := Reader.map_ok h
  obtain ⟨rfl, hlt⟩ := Reader.nat_ok hn
  refine ⟨UInt64.ofNat n, ?_, ?_⟩ <;> rw [UInt64.toNat_ofNat_of_lt' hlt]

theorem getAttr_ok {bs rest : Bytes} {v : AttrValue} (h : getAttr bs = .ok (v, rest)) :
    bs = putAttr v ++ rest ∧ v.carried = v ∧ v.text.length < 2 ^ 32 := by
  unfold getAttr at h
  obtain ⟨type, mid, htype, hvalue⟩ := Reader.bind_ok h
  obtain ⟨hbs, -⟩ := Reader.nat_ok htype
  rw [hbs]
  dsimp only at hvalue
  by_cases hbad : 5 < type
  · rw [if_pos hbad] at hvalue
    cases hvalue
  · rw [if_neg hbad] at hvalue
    have hnum : ∀ t : AttrType, t.toByte.toNat = type → (t = .int64 ∨ t = .float64 ∨ t = .bool) →
        (((fun raw => AttrValue.mk t (UInt64.ofNat raw) []) <$> getNumber 8 :
          Reader Exn AttrValue) mid = .ok (v, rest)) →
        putNat 1 type ++ mid = putAttr v ++ rest ∧ v.carried = v ∧ v.text.length < 2 ^ 32 := by
      rintro t rfl ht h
      obtain ⟨x, rfl, rfl⟩ := getNumber8_ok h
      rw [UInt64.ofNat_toNat]
      rcases ht with rfl | rfl | rfl <;> exact ⟨(List.append_assoc ..).symm, rfl, by simp⟩
    have hstr : ∀ t : AttrType, t.toByte.toNat = type → (t = .tag ∨ t = .text) →
        ((AttrValue.mk t 0 <$> getText : Reader Exn AttrValue) mid = .ok (v, rest)) →
        putNat 1 type ++ mid = putAttr v ++ rest ∧ v.carried = v ∧ v.text.length < 2 ^ 32 := by
      rintro t rfl ht h
      obtain ⟨s, hs, rfl⟩ := Reader.map_ok h
      obtain ⟨rfl, hlen⟩ := getText_ok hs
      rcases ht with rfl | rfl <;> exact ⟨(List.append_assoc ..).symm, rfl, hlen⟩
    obtain rfl | rfl | rfl | rfl | rfl | rfl : type = 0 ∨ type = 1 ∨ type = 2 ∨ type = 3 ∨
        type = 4 ∨ type = 5 := by omega
    · obtain ⟨rfl, rfl⟩ := Reader.pure_ok hvalue
      exact ⟨rfl, rfl, by simp⟩
    · exact hnum .int64 rfl (by simp) hvalue
    · exact hnum .float64 rfl (by simp) hvalue
    · exact hnum .bool rfl (by simp) hvalue
    · exact hstr .tag rfl (by simp) hvalue
    · exact hstr .text rfl (by simp) hvalue

theorem getMeta_ok {bs rest : Bytes} {m : Record} (h : getMeta bs = .ok (m, rest)) :
    bs = putMeta m ++ rest ∧ m.attrs.map AttrValue.carried = m.attrs ∧
      m.attrs.length < 2 ^ 32 ∧ (∀ a ∈ m.attrs, a.text.length < 2 ^ 32) ∧
      m.payload.length < 2 ^ 32 := by
  obtain ⟨n, mid, hn, hfields⟩ := Reader.bind_ok h
  obtain ⟨hbs, hlt⟩ := Reader.nat_ok hn
  obtain ⟨attrs, mid', hattrs, hfields⟩ := Reader.bind_ok hfields
  obtain ⟨payload, rest', hpay, hend⟩ := Reader.bind_ok hfields
  obtain ⟨rfl, rfl⟩ := Reader.pure_ok hend
  obtain ⟨rfl, rfl, hall⟩ := Reader.many_ok (Q := fun a => a.carried = a ∧ a.text.length < 2 ^ 32)
    (fun h => getAttr_ok h) hattrs
  obtain ⟨rfl, hlen⟩ := getText_ok hpay
  refine ⟨?_, ?_, hlt, fun a ha => (hall a ha).2, hlen⟩
  · rw [hbs]
    simp only [putMeta, List.append_assoc]
  · exact (List.map_congr_left fun a ha => (hall a ha).1).trans (List.map_id _)

theorem getVector_ok {bs rest : Bytes} {v : List UInt32} (h : getVector bs = .ok (v, rest)) :
    bs = putVector v ++ rest ∧ v.length < 2 ^ 32 := by
  obtain ⟨n, mid, hn, hfields⟩ := Reader.bind_ok h
  obtain ⟨hbs, hlt⟩ := Reader.nat_ok hn
  obtain ⟨xs, rest', hxs, hend⟩ := Reader.bind_ok hfields
  obtain ⟨rfl, rfl⟩ := Reader.pure_ok hend
  have hnum : ∀ {bs rest : Bytes} {n : ℕ}, getNumber 4 bs = .ok (n, rest) →
      bs = putNat 4 n ++ rest ∧ n < 2 ^ 32 := Reader.nat_ok
  obtain ⟨rfl, rfl, hall⟩ := Reader.many_ok hnum hxs
  refine ⟨?_, by rwa [List.length_map]⟩
  rw [hbs, putVector, List.length_map, List.append_assoc, List.flatMap_map]
  congr 2
  exact List.flatMap_congr fun x hx => by rw [UInt32.toNat_ofNat_of_lt' (hall x hx)]

theorem getIf_ok {α : Type} {carries : Bool} {absent a : α} {r : Reader Exn α} {bs rest : Bytes}
    (h : getIf carries absent r bs = .ok (a, rest)) :
    (carries = true ∧ r bs = .ok (a, rest)) ∨ (carries = false ∧ a = absent ∧ bs = rest) := by
  cases carries with
  | true => exact .inl ⟨rfl, h⟩
  | false =>
    obtain ⟨rfl, rfl⟩ := Reader.pure_ok h
    exact .inr ⟨rfl, rfl, rfl⟩

theorem toByte_ofByte {b : ℕ} (hb : b < 2 ^ 8) : (WalRecordType.ofByte b).toByte = b := by
  unfold WalRecordType.ofByte
  split_ifs with h h1 h2 h3 h4
  · rfl
  · exact h1.symm
  · exact h2.symm
  · exact h3.symm
  · exact h4.symm
  · change 5 = b
    omega

/-- The size limits of a record whose fields were read. -/
structure WalRecord.Read (r : WalRecord) : Prop where
  carried : r.carried = r
  type : r.type.toByte < 2 ^ 8
  lsn : r.lsn < 2 ^ 64
  extId : r.extId < 2 ^ 64
  vec : r.vec.length < 2 ^ 32
  attrs : r.metadata.attrs.length < 2 ^ 32
  texts : ∀ a ∈ r.metadata.attrs, a.text.length < 2 ^ 32
  payload : r.metadata.payload.length < 2 ^ 32

/-- **The fields of a body** are those that would be written of the record, before other bytes. -/
theorem getBody_ok {body rest : Bytes} {r : WalRecord} (h : getBody body = .ok (r, rest)) :
    body = encodeBody r ++ rest ∧ r.Read := by
  obtain ⟨type, b₁, hr₁, h₁⟩ := Reader.bind_ok h
  obtain ⟨lsn, b₂, hr₂, h₂⟩ := Reader.bind_ok h₁
  obtain ⟨extId, b₃, hr₃, h₃⟩ := Reader.bind_ok h₂
  obtain ⟨vec, b₄, hvec, h₄⟩ := Reader.bind_ok h₃
  obtain ⟨metadata, b₅, hmeta, h₅⟩ := Reader.bind_ok h₄
  obtain ⟨rfl, rfl⟩ := Reader.pure_ok h₅
  obtain ⟨rfl, htype⟩ := Reader.nat_ok hr₁
  obtain ⟨rfl, hlsn⟩ := Reader.nat_ok hr₂
  obtain ⟨rfl, hextId⟩ := Reader.nat_ok hr₃
  set t := WalRecordType.ofByte type with ht
  have hbyte : t.toByte = type := toByte_ofByte htype
  have hvec' : b₃ = (if t.carriesVector then putVector vec else []) ++ b₄ ∧
      vec.length < 2 ^ 32 ∧ (if t.carriesVector then vec else []) = vec := by
    rcases getIf_ok hvec with ⟨hc, hr⟩ | ⟨hc, rfl, rfl⟩
    · obtain ⟨hb, hlen⟩ := getVector_ok hr
      exact ⟨by rw [if_pos hc, hb], hlen, if_pos hc⟩
    · simp [hc]
  have hmeta' : b₄ = (if t.carriesMeta then putMeta metadata else []) ++ b₅ ∧
      (if t.carriesMeta then ⟨metadata.attrs.map AttrValue.carried, metadata.payload⟩ else {}) =
        metadata ∧ metadata.attrs.length < 2 ^ 32 ∧
      (∀ a ∈ metadata.attrs, a.text.length < 2 ^ 32) ∧ metadata.payload.length < 2 ^ 32 := by
    rcases getIf_ok hmeta with ⟨hc, hr⟩ | ⟨hc, rfl, rfl⟩
    · obtain ⟨hb, hcarried, hlen⟩ := getMeta_ok hr
      exact ⟨by rw [if_pos hc, hb], by rw [if_pos hc, hcarried], hlen⟩
    · simp [hc]
  obtain ⟨hb₃, hlen, hvec⟩ := hvec'
  obtain ⟨hb₄, hmeta, hattrs, htexts, hpay⟩ := hmeta'
  refine ⟨?_, ?_, hbyte.symm ▸ htype, hlsn, hextId, hlen, hattrs, htexts, hpay⟩
  · rw [encodeBody, hbyte, hb₃, hb₄]
    simp only [List.append_assoc]
  · rw [WalRecord.carried, hvec, hmeta]

/-! ### Accepted frames -/

/-- The bytes start with a complete frame of this body, and its checksum is right. -/
def Checked (data body : Bytes) : Prop := body.length < 2 ^ 32 ∧ frameOf body <+: data

theorem Checked.decode {data body : Bytes} (h : Checked data body) :
    decodeRecord data = decodeBody body.length body := by
  obtain ⟨hlen, rest, rfl⟩ := h
  exact decodeRecord_frameOf hlen rest

theorem checked_of_ok {data : Bytes} {r : WalRecord} {n : ℕ} (h : decodeRecord data = .ok r n) :
    ∃ body, Checked data body := by
  unfold decodeRecord at h
  dsimp only at h
  split_ifs at h with h8 hmore hcrc
  set body := (data.drop 8).take (getNat (data.take 4)) with hbody
  have h4 : (data.take 4).length = 4 := List.length_take_of_le (by omega)
  have hc4 : ((data.drop 4).take 4).length = 4 :=
    List.length_take_of_le (by rw [List.length_drop]; omega)
  have hlen : body.length = getNat (data.take 4) :=
    List.length_take_of_le (by rw [List.length_drop]; omega)
  have hlength : putNat 4 body.length = data.take 4 := by
    rw [hlen, putNat_getNat_of_length h4]
  have hsum : putNat 4 (crc32c (putNat 4 body.length ++ body)).toNat = (data.drop 4).take 4 := by
    rw [hlength, not_not.1 hcrc, putNat_getNat_of_length hc4]
  refine ⟨body, ?_, (data.drop 8).drop (getNat (data.take 4)), ?_⟩
  · have := getNat_lt (data.take 4)
    rwa [h4, ← hlen] at this
  · rw [frameOf, hlength, ← hlength, hsum, hlength, List.append_assoc, List.append_assoc, hbody,
      List.take_append_drop, show data.drop 8 = (data.drop 4).drop 4 by rw [List.drop_drop],
      List.take_append_drop, List.take_append_drop]

/-- The checksum covers a record and either a type byte that is no enumerator, or more bytes. -/
def Stray (data : Bytes) : Prop :=
  ∃ r t, r.Fits ∧ Checked data (encodeBody r ++ t) ∧ (¬ r.type.Declared ∨ t ≠ [])

/-- Only frames of declared records are accepted, and other checked frames are corrupt. -/
def OnlyFrames (data : Bytes) : Prop :=
  (∀ r n, decodeRecord data = .ok r n → r.type.Declared ∧ data.take n = encodeRecord r) ∧
    ∀ body, Checked data body → (¬ ∃ r, r.type.Declared ∧ body = encodeBody r) →
      decodeRecord data = .badCrc ∧ (decodeRecord data).consumed = 0

/-- What is accepted has a body that starts with the fields of the record. -/
theorem body_of_ok {data body : Bytes} (hc : Checked data body) {r : WalRecord} {n : ℕ}
    (h : decodeRecord data = .ok r n) :
    ∃ t, body = encodeBody r ++ t ∧ r.Fits ∧ n = 8 + body.length := by
  rw [hc.decode] at h
  unfold decodeBody at h
  split_ifs at h
  cases hg : getBody body with
  | error e =>
    rw [hg] at h
    cases h
  | ok p =>
    obtain ⟨r', t⟩ := p
    rw [hg] at h
    cases h
    obtain ⟨rfl, hread⟩ := getBody_ok hg
    refine ⟨t, rfl, ⟨hread.type, hread.lsn, hread.extId, hread.vec, hread.attrs, hread.texts,
      hread.payload, ?_⟩, rfl⟩
    exact (List.length_append ▸ Nat.le_add_right ..).trans_lt hc.1

theorem putAttr_carried (a : AttrValue) : putAttr a.carried = putAttr a := by
  unfold putAttr AttrValue.carried
  cases a.type <;> rfl

/-- What the frame does not carry is not written. -/
theorem encodeBody_carried (r : WalRecord) : encodeBody r.carried = encodeBody r := by
  have hattrs : ∀ l : List AttrValue, (l.map AttrValue.carried).flatMap putAttr =
      l.flatMap putAttr := by
    intro l
    rw [List.flatMap_map]
    exact List.flatMap_congr fun a _ => putAttr_carried a
  unfold encodeBody WalRecord.carried
  cases hv : r.type.carriesVector <;> cases hm : r.type.carriesMeta <;> simp [putMeta, hattrs]

/-- **Every accepted frame** is the frame of what it decodes to, exactly when it has no bytes behind
its fields and its type is declared. -/
theorem onlyFrames_iff (data : Bytes) : OnlyFrames data ↔ ¬ Stray data := by
  constructor
  · rintro ⟨honly, -⟩ ⟨r, t, hfits, hchecked, hstray⟩
    have hdecode : decodeRecord data = .ok r.carried (8 + (encodeBody r ++ t).length) := by
      rw [hchecked.decode, decodeBody, if_neg, reads_body hfits t]
      have := length_encodeBody r
      rw [List.length_append]
      omega
    obtain ⟨hdeclared, htake⟩ := honly _ _ hdecode
    -- the record returned is written in as many bytes as the body has
    have hlen := congrArg List.length htake
    have hwhole : 8 + (encodeBody r ++ t).length ≤ data.length := by
      have := hchecked.2.length_le
      rwa [frameOf, List.length_append, length_putNat, List.length_append, length_putNat,
        ← add_assoc] at this
    rw [List.length_take_of_le hwhole, length_encodeRecord, encodeBody_carried,
      List.length_append] at hlen
    rcases hstray with hno | ht
    · exact hno hdeclared
    · exact ht (List.length_eq_zero_iff.1 (by omega))
  · intro hstray
    have hbody : ∀ r n body, Checked data body → decodeRecord data = .ok r n →
        r.type.Declared ∧ body = encodeBody r ∧ n = 8 + body.length := by
      intro r n body hchecked h
      obtain ⟨t, rfl, hfits, rfl⟩ := body_of_ok hchecked h
      have hclean : r.type.Declared ∧ t = [] := by
        by_contra hne
        exact hstray ⟨r, t, hfits, hchecked, by tauto⟩
      obtain ⟨hdeclared, rfl⟩ := hclean
      exact ⟨hdeclared, List.append_nil _, rfl⟩
    refine ⟨fun r n h => ?_, fun body hchecked hno => ?_⟩
    · obtain ⟨body, hchecked⟩ := checked_of_ok h
      obtain ⟨hdeclared, rfl, rfl⟩ := hbody r n body hchecked h
      refine ⟨hdeclared, ?_⟩
      rw [← length_encodeRecord]
      exact (List.prefix_iff_eq_take.1 hchecked.2).symm
    · cases hd : decodeRecord data with
      | ok r n =>
        obtain ⟨hdeclared, henc, -⟩ := hbody r n body hchecked hd
        exact absurd ⟨r, hdeclared, henc⟩ hno
      | badCrc => exact ⟨rfl, rfl⟩
      | incomplete =>
        -- a checked frame is complete
        rw [hchecked.decode] at hd
        unfold decodeBody at hd
        split_ifs at hd
        split at hd <;> cases hd

/-- A type byte that is no enumerator, and a byte behind a removal. -/
theorem stray_accepted :
    ¬ OnlyFrames (encodeRecord { type := .unknown 6 (by decide), lsn := 1, extId := 2 }) ∧
      ¬ OnlyFrames (frameOf (encodeBody { type := .delete, lsn := 1, extId := 2 } ++ [0])) := by
  constructor
  · rintro ⟨honly, -⟩
    have hdecode : decodeRecord
      (encodeRecord { type := .unknown 6 (by decide), lsn := 1, extId := 2 }) =
        .ok { type := .unknown 6 (by decide), lsn := 1, extId := 2 } 25 := by decide +kernel
    exact (honly _ _ hdecode).1
  · rintro ⟨honly, -⟩
    have hdecode : decodeRecord
      (frameOf (encodeBody { type := .delete, lsn := 1, extId := 2 } ++ [0])) =
        .ok { type := .delete, lsn := 1, extId := 2 } 26 := by decide +kernel
    exact absurd (honly _ _ hdecode).2 (by decide +kernel)

end Vdb
