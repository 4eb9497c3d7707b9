import Vdb.Wal.Frame
import Vdb.Lib.Crc

/-!
# Damage the checksum finds

A frame with some bits changed, within four bytes of its body or within its checksum.

* `crc32c_eq_feed` : the checksum is the table-driven form of the general one.
* `crc32c_eq_serial` : it is the bit-serial CRC-32C.
* `crc32c_burst_ne` : a change within four bytes changes it.
* `decodeRecord_damaged` : a frame so changed is not taken for a record.
-/

namespace Vdb

open Metadata

/-! ### The checksum, bit by bit -/

/-- The polynomial of the table. -/
def crcPoly : BitVec 32 := 0x82F63B78#32

/-- The test of the low bit. -/
theorem low_bit_ne_zero (c : UInt32) : c &&& 1 ≠ 0 ↔ c.toBitVec.getLsbD 0 = true := by
  rw [ne_eq, ← UInt32.toBitVec_inj, UInt32.toBitVec_and]
  have hbit : c.toBitVec &&& (1 : UInt32).toBitVec =
      BitVec.setWidth 32 (BitVec.ofBool (c.toBitVec.getLsbD 0)) :=
    BitVec.and_one_eq_setWidth_ofBool_getLsbD
  rw [hbit]
  cases c.toBitVec.getLsbD 0 <;> decide

theorem crcRound_toBitVec (c : UInt32) : (crcRound c).toBitVec = Crc.round crcPoly c.toBitVec := by
  rw [crcRound, Crc.round, if_congr (low_bit_ne_zero c) rfl rfl]
  split_ifs <;> rfl

theorem crcTable_toBitVec (i : UInt32) :
    (crcTable i).toBitVec = (Crc.round crcPoly)^[8] i.toBitVec :=
  Function.Semiconj.iterate_right (f := UInt32.toBitVec) crcRound_toBitVec 8 i

/-- The checksum is the bit-serial one. -/
theorem crc32c_eq_feed (data : Bytes) : (crc32c data).toBitVec =
    Crc.feed crcPoly (Crc.bitsOfBytes data) 0xFFFFFFFF#32 ^^^ 0xFFFFFFFF#32 := by
  have hfold : ∀ c : UInt32, (data.foldl (fun crc b =>
      crcTable ((crc ^^^ b.toUInt32) &&& 0xFF) ^^^ (crc >>> 8)) c).toBitVec =
        Crc.feed crcPoly (Crc.bitsOfBytes data) c.toBitVec := by
    induction data with
    | nil => exact fun _ => rfl
    | cons b data ih =>
      intro c
      have hbits : Crc.bitsOfBytes (b :: data) = Crc.bitsOf b ++ Crc.bitsOfBytes data := rfl
      rw [List.foldl_cons, ih, hbits, Crc.feed_append, Crc.feed_bitsOf (by decide),
        UInt32.toBitVec_xor, crcTable_toBitVec]
      rfl
  rw [crc32c, UInt32.toBitVec_xor, hfold]
  rfl

/-- The bits of a message, the least significant of each byte first. -/
def messageBits (data : Bytes) : List Bool :=
  data.flatMap fun b => (List.range 8).map b.toNat.testBit

/-- One bit of the message: shift, and add the polynomial if the bit that falls out is another. -/
def crcBit (crc : UInt32) (bit : Bool) : UInt32 :=
  if (crc &&& 1 ≠ 0) ≠ (bit = true) then (crc >>> 1) ^^^ 0x82F63B78 else crc >>> 1

/-- The reflected CRC-32C of a message, bit by bit. -/
def crc32cSerial (data : Bytes) : UInt32 :=
  (messageBits data).foldl crcBit 0xFFFFFFFF ^^^ 0xFFFFFFFF

theorem messageBits_eq (data : Bytes) : messageBits data = Crc.bitsOfBytes data := rfl

/-- The bit can as well be added to the register before the shift. -/
theorem crcBit_toBitVec (crc : UInt32) (bit : Bool) :
    (crcBit crc bit).toBitVec = Crc.round crcPoly (Crc.addBit crc.toBitVec bit) := by
  have hbit : ((BitVec.ofBool bit).setWidth 32).getLsbD 0 = bit := by
    cases bit <;> rfl
  have hshift : Crc.addBit crc.toBitVec bit >>> 1 = crc.toBitVec >>> 1 := by
    have hgone : (BitVec.ofBool bit).setWidth 32 >>> 1 = 0#32 := by
      cases bit <;> rfl
    rw [Crc.addBit, BitVec.ushiftRight_xor_distrib, hgone, BitVec.xor_zero]
  have hout : (Crc.addBit crc.toBitVec bit).getLsbD 0 = true ↔
      (crc &&& 1 ≠ 0) ≠ (bit = true) := by
    rw [Crc.addBit, BitVec.getLsbD_xor, hbit, low_bit_ne_zero]
    cases crc.toBitVec.getLsbD 0 <;> cases bit <;> simp
  rw [crcBit, Crc.round, hshift, if_congr hout rfl rfl]
  split_ifs <;> rfl

/-- **The table-driven checksum is the bit-serial one**, for every message. -/
theorem crc32c_eq_serial (data : Bytes) : crc32c data = crc32cSerial data := by
  have hfold : ∀ (bits : List Bool) (c : UInt32),
      (bits.foldl crcBit c).toBitVec = Crc.feed crcPoly bits c.toBitVec := by
    intro bits
    induction bits with
    | nil => exact fun _ => rfl
    | cons bit bits ih =>
      intro c
      rw [List.foldl_cons, ih, crcBit_toBitVec]
      rfl
  rw [← UInt32.toBitVec_inj, crc32c_eq_feed, crc32cSerial, UInt32.toBitVec_xor, hfold,
    messageBits_eq]
  rfl

-- the check value of CRC-32C
example : crc32c (ascii "123456789") = 0xE3069283 := by decide +kernel

/-- **A change within four bytes** changes the checksum. -/
theorem crc32c_burst_ne {u u' : Bytes} (before after : Bytes) (hlen : u.length = u'.length)
    (h4 : u.length ≤ 4) (hne : u ≠ u') :
    crc32c (before ++ (u ++ after)) ≠ crc32c (before ++ (u' ++ after)) := by
  intro h
  have hfeed := congrArg UInt32.toBitVec h
  simp only [crc32c_eq_feed, BitVec.xor_left_inj, Crc.bitsOfBytes, List.flatMap_append] at hfeed
  refine Crc.feed_burst_ne (by decide) _ _ ?_ ?_ (Crc.bitsOfBytes_injective.ne hne) hfeed
  · rw [Crc.length_bitsOfBytes, Crc.length_bitsOfBytes, hlen]
  · rw [Crc.length_bitsOfBytes]
    omega

/-! ### Changed frames -/

/-- Some bits are changed, and none outside the bytes from `start` to `stop`. -/
structure ChangedWithin (start stop : ℕ) (data data' : Bytes) : Prop where
  length : data'.length = data.length
  same : ∀ i, i < start ∨ stop ≤ i → data'[i]? = data[i]?
  ne : data' ≠ data

/-- The change is within four consecutive bytes of the body, or within the stored checksum. -/
def Damaged (frame frame' : Bytes) : Prop :=
  (∃ start stop, 8 ≤ start ∧ stop ≤ start + 4 ∧ stop ≤ frame.length ∧
    ChangedWithin start stop frame frame') ∨ ChangedWithin 4 8 frame frame'

/-- The bytes that may have changed, and those around them. -/
theorem ChangedWithin.exists_parts {start stop : ℕ} {data data' : Bytes}
    (h : ChangedWithin start stop data data') (hstop : stop ≤ data.length) :
    ∃ before u u' after : Bytes, data = before ++ (u ++ after) ∧ data' = before ++ (u' ++ after) ∧
      before.length = start ∧ u.length = stop - start ∧ u'.length = stop - start ∧ u ≠ u' := by
  have hle : start ≤ stop := by
    by_contra hgt
    exact h.ne (List.ext_getElem? fun i => h.same i (by omega))
  have hbefore : data'.take start = data.take start := by
    refine List.ext_getElem? fun i => ?_
    rw [List.getElem?_take, List.getElem?_take]
    split_ifs with hi
    · exact h.same i (.inl hi)
    · rfl
  have hafter : data'.drop stop = data.drop stop := by
    refine List.ext_getElem? fun i => ?_
    rw [List.getElem?_drop, List.getElem?_drop]
    exact h.same _ (.inr (Nat.le_add_right ..))
  have hparts : ∀ bs : Bytes,
      bs = bs.take start ++ ((bs.drop start).take (stop - start) ++ bs.drop stop) := fun bs => by
    conv_lhs => rw [← List.take_append_drop start bs,
      ← List.take_append_drop (stop - start) (bs.drop start), List.drop_drop,
      Nat.add_sub_of_le hle]
  have hd := hparts data
  have hd' := hparts data'
  rw [hbefore, hafter] at hd'
  refine ⟨_, _, _, _, hd, hd', ?_, ?_, ?_, fun heq => h.ne ?_⟩
  · rw [List.length_take]
    omega
  · rw [List.length_take, List.length_drop]
    omega
  · rw [List.length_take, List.length_drop, h.length]
    omega
  · rw [hd, hd', heq]

/-- Another checksum in its place. -/
theorem ChangedWithin.checksum {length crc crc' rest : Bytes} (hlength : length.length = 4)
    (hcrc : crc.length = 4) (hcrc' : crc'.length = 4) (hne : crc' ≠ crc) :
    ChangedWithin 4 8 (length ++ (crc ++ rest)) (length ++ (crc' ++ rest)) := by
  refine ⟨?_, fun i hi => ?_, fun h => hne ?_⟩
  · simp only [List.length_append, hcrc, hcrc']
  · rcases hi with hi | hi
    · rw [List.getElem?_append_left (by omega), List.getElem?_append_left (by omega)]
    · rw [List.getElem?_append_right (by omega), List.getElem?_append_right (by omega),
        List.getElem?_append_right (by omega), List.getElem?_append_right (by omega), hcrc, hcrc']
  · exact (List.append_inj (List.append_cancel_left h) (hcrc'.trans hcrc.symm)).1

/-- A frame whose checksum is wrong. -/
theorem decodeRecord_badCrc {crc body : Bytes} (h : body.length < 2 ^ 32) (hcrc : crc.length = 4)
    (hne : (crc32c (putNat 4 body.length ++ body)).toNat ≠ getNat crc) :
    decodeRecord (putNat 4 body.length ++ (crc ++ body)) = .badCrc := by
  have hparts := decodeRecord_parts h hcrc []
  rwa [List.append_nil, if_pos hne] at hparts

/-- **A damaged frame** is not taken for a record. -/
theorem decodeRecord_damaged {r : WalRecord} {frame : Bytes}
    (hbody : (encodeBody r).length < 2 ^ 32) (h : Damaged (encodeRecord r) frame) :
    decodeRecord frame = .badCrc ∧ (decodeRecord frame).consumed = 0 := by
  suffices hbad : decodeRecord frame = .badCrc by
    rw [hbad]
    exact ⟨rfl, rfl⟩
  rw [encodeRecord_eq] at h
  generalize encodeBody r = body at hbody h
  set length := putNat 4 body.length with hl
  set crc := putNat 4 (crc32c (length ++ body)).toNat with hc
  have h4 : length.length = 4 := length_putNat ..
  have hc4 : crc.length = 4 := length_putNat ..
  have hstored : getNat crc = (crc32c (length ++ body)).toNat :=
    getNat_putNat_of_lt (crc32c (length ++ body)).toNat_lt
  have hframe : frameOf body = length ++ (crc ++ body) := rfl
  have hsize : (frameOf body).length = 8 + body.length := by
    rw [hframe, List.length_append, List.length_append]
    omega
  rcases h with ⟨start, stop, h8, hfour, hstop, hch⟩ | hch
  · obtain ⟨before, u, u', after, hd, hd', hb, hu, hu', hne⟩ := hch.exists_parts hstop
    -- the part before the change holds the length and the checksum
    obtain ⟨mid, hbefore, hmid⟩ : ∃ mid, before = length ++ crc ++ mid ∧
        body = mid ++ (u ++ after) := by
      rw [hframe, ← List.append_assoc] at hd
      obtain ⟨mid, hmid⟩ : length ++ crc <+: before :=
        List.prefix_of_prefix_length_le (List.prefix_append ..) ⟨_, hd.symm⟩
          (by rw [List.length_append]; omega)
      refine ⟨mid, hmid.symm, ?_⟩
      rw [← hmid, List.append_assoc (length ++ crc)] at hd
      exact List.append_cancel_left hd
    have hlen : (mid ++ (u' ++ after)).length = body.length := by
      rw [hmid]
      simp only [List.length_append]
      omega
    have hframe' : frame =
        putNat 4 (mid ++ (u' ++ after)).length ++ (crc ++ (mid ++ (u' ++ after))) := by
      rw [hlen, ← hl, hd', hbefore]
      simp only [List.append_assoc]
    rw [hframe']
    refine decodeRecord_badCrc (hlen ▸ hbody) hc4 fun heq => ?_
    rw [hstored, hlen, ← hl, hmid, UInt32.toNat_inj, ← List.append_assoc length,
      ← List.append_assoc length] at heq
    exact crc32c_burst_ne (length ++ mid) after (hu'.trans hu.symm) (by omega) (Ne.symm hne) heq
  · obtain ⟨before, u, u', after, hd, hd', hb, hu, hu', hne⟩ := hch.exists_parts (by omega)
    rw [hframe] at hd
    obtain ⟨hlength, hd⟩ := List.append_inj hd (h4.trans hb.symm)
    obtain ⟨hcrc, hafter⟩ := List.append_inj hd (hc4.trans hu.symm)
    rw [hd', ← hlength, ← hafter]
    refine decodeRecord_badCrc hbody hu' fun heq => hne ?_
    rw [← hl, ← hstored] at heq
    rw [← hcrc, ← putNat_getNat_of_length hc4, heq, putNat_getNat_of_length hu']

/-- One flipped bit of a `Delete`. -/
theorem decodeRecord_damaged_delete :
    let r : WalRecord := { type := .delete, lsn := 1, extId := 5 }
    let frame := (encodeRecord r).set 20 1
    decodeRecord frame = .badCrc ∧ (decodeRecord frame).consumed = 0 := by
  refine decodeRecord_damaged (r := { type := .delete, lsn := 1, extId := 5 }) (by decide) (.inl ?_)
  refine ⟨20, 21, by decide, by decide, by decide, List.length_set,
    fun i hi => ?_, by decide +kernel⟩
  exact List.getElem?_set_ne (by omega)

/-- Metadata without attributes; with a payload of `2 ^ 32` bytes the body has `2 ^ 32 + 25`. -/
def payloadRecord (payload : Bytes) : WalRecord :=
  { type := .setMeta, lsn := 1, extId := 5, metadata := ⟨[], payload⟩ }

/-- The body of a record without a payload. -/
def largeHead : Bytes := encodeBody (payloadRecord [])

theorem encodeBody_large {payload : Bytes} (h : payload.length = 2 ^ 32) :
    encodeBody (payloadRecord payload) = largeHead ++ payload := by
  have hmeta : putMeta ⟨[], payload⟩ = putNat 4 0 ++ (putNat 4 0 ++ payload) := by
    rw [putMeta, h]
    rfl
  rw [payloadRecord, encodeBody, hmeta]
  rfl

/-- If every damaged frame is found out, the part of the body that its length covers has the
checksum of the whole. -/
theorem crc32c_large {payload : Bytes} (h : payload.length = 2 ^ 32)
    (hall : ∀ frame, Damaged (encodeRecord (payloadRecord payload)) frame →
      decodeRecord frame = .badCrc) :
    crc32c (putNat 4 25 ++ (largeHead ++ payload)) = crc32c (putNat 4 25 ++ largeHead) := by
  have hlen : putNat 4 (largeHead ++ payload).length = putNat 4 25 := by
    rw [List.length_append, h]
    rfl
  have hframe : decodeRecord (frameOf largeHead ++ payload) =
      .ok (payloadRecord []) 33 := (decodeRecord_frameOf (by decide) payload).trans rfl
  by_contra hne
  refine absurd (hall (frameOf largeHead ++ payload) (.inr ?_)) (by rw [hframe]; exact nofun)
  have hold : encodeRecord (payloadRecord payload) = putNat 4 25 ++
      (putNat 4 (crc32c (putNat 4 25 ++ (largeHead ++ payload))).toNat ++
        (largeHead ++ payload)) := by
    rw [encodeRecord_eq, encodeBody_large h, frameOf, hlen]
  have hnew : frameOf largeHead ++ payload = putNat 4 25 ++
      (putNat 4 (crc32c (putNat 4 25 ++ largeHead)).toNat ++ (largeHead ++ payload)) := by
    rw [frameOf, List.append_assoc, List.append_assoc]
    rfl
  rw [hold, hnew]
  refine .checksum (length_putNat ..) (length_putNat ..) (length_putNat ..) fun heq => hne ?_
  have hnat := congrArg getNat heq
  rw [getNat_putNat_of_lt (UInt32.toNat_lt _), getNat_putNat_of_lt (UInt32.toNat_lt _)] at hnat
  exact (UInt32.toNat_inj.1 hnat).symm

/-- **A body too long for its length field**: a frame with another checksum is taken for a record,
the one that the stored length covers. -/
theorem damaged_large : ¬ ∀ (r : WalRecord) (frame : Bytes), Damaged (encodeRecord r) frame →
    decodeRecord frame = .badCrc ∧ (decodeRecord frame).consumed = 0 := by
  intro hall
  obtain ⟨zeros, hzeros⟩ : ∃ zeros : Bytes, zeros.length = 2 ^ 32 - 1 :=
    ⟨List.replicate _ 0, List.length_replicate⟩
  -- two bodies that differ in the last byte would have one checksum
  have hcrc : ∀ last : UInt8, crc32c (putNat 4 25 ++ (largeHead ++ (zeros ++ [last]))) =
      crc32c (putNat 4 25 ++ largeHead) := fun last =>
    crc32c_large (by simp [hzeros]) fun frame h => (hall _ frame h).1
  have hlen : ([0] : Bytes).length = ([1] : Bytes).length := rfl
  refine crc32c_burst_ne (putNat 4 25 ++ (largeHead ++ zeros)) [] hlen (by decide) (by decide) ?_
  have heq := (hcrc 0).trans (hcrc 1).symm
  simp only [List.append_assoc, List.append_nil] at heq ⊢
  exact heq

end Vdb
