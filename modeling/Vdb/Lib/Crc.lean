import Mathlib.Data.List.Basic
import Mathlib.Logic.Function.Iterate
import Mathlib.Logic.Function.Basic

/-!
# Cyclic redundancy checks

A reflected check of width `w`: the register takes the message bit by bit, the least significant
bit of each byte first.

* `feed_append`, `feed_injective` : what comes later keeps two registers apart.
* `feed_eq_rounds` : up to `w` bits can be added at once, so they are told apart
  (`eq_of_feed_eq`, `feed_burst_ne`).
* `rounds_eight` : the byte at a time, from a table.
-/

namespace Vdb

namespace Crc

variable {w : ℕ} {poly c c' x y : BitVec w} {bits bits' : List Bool}

/-- Shift, and add the polynomial if a bit falls out. -/
def round (poly c : BitVec w) : BitVec w :=
  if c.getLsbD 0 then (c >>> 1) ^^^ poly else c >>> 1

/-- The register with a bit of the message at its low end. -/
def addBit (c : BitVec w) (b : Bool) : BitVec w := c ^^^ (BitVec.ofBool b).setWidth w

/-- The register after the message. -/
def feed (poly : BitVec w) (bits : List Bool) (c : BitVec w) : BitVec w :=
  bits.foldl (fun c b => round poly (addBit c b)) c

/-- The message as the low bits of a register. -/
def pack (w : ℕ) : List Bool → BitVec w
  | [] => 0#w
  | b :: bits => (BitVec.ofBool b).setWidth w ^^^ (pack w bits <<< 1)

theorem feed_append (bits bits' : List Bool) (c : BitVec w) :
    feed poly (bits ++ bits') c = feed poly bits' (feed poly bits c) := List.foldl_append

/-! ### A round is linear -/

theorem round_xor (a b : BitVec w) : round poly (a ^^^ b) = round poly a ^^^ round poly b := by
  have hcancel : ∀ u v : BitVec w, u ^^^ poly ^^^ (v ^^^ poly) = u ^^^ v := fun u v => by
    rw [BitVec.xor_assoc u poly, BitVec.xor_comm poly, BitVec.xor_assoc v, BitVec.xor_self,
      BitVec.xor_zero]
  unfold round
  rw [BitVec.getLsbD_xor, BitVec.ushiftRight_xor_distrib]
  cases a.getLsbD 0 <;> cases b.getLsbD 0
  · rfl
  · exact BitVec.xor_assoc _ _ _
  · simp only [Bool.xor_false, if_true, Bool.false_eq_true, if_false]
    rw [BitVec.xor_assoc, BitVec.xor_comm _ poly, ← BitVec.xor_assoc]
  · exact (hcancel _ _).symm

theorem iterate_round_xor (n : ℕ) (a b : BitVec w) :
    (round poly)^[n] (a ^^^ b) = (round poly)^[n] a ^^^ (round poly)^[n] b := by
  induction n generalizing a b with
  | zero => rfl
  | succ n ih => rw [Function.iterate_succ_apply, round_xor, ih]; rfl

/-- A register whose low bit is free only moves down. -/
theorem round_shiftLeft (h : y.getLsbD (w - 1) = false) : round poly (y <<< 1) = y := by
  have hlow : (y <<< 1).getLsbD 0 = false := by simp
  rw [round, hlow]
  refine BitVec.eq_of_getLsbD_eq fun i hi => ?_
  rw [if_neg (by simp), BitVec.getLsbD_ushiftRight, BitVec.getLsbD_shiftLeft]
  by_cases hlast : i = w - 1
  · rw [hlast, h]
    have hw : ¬ 1 + (w - 1) < w := by omega
    simp [hw]
  · have hw : 1 + i < w := by omega
    simp [hw]

theorem iterate_round_shiftLeft (n : ℕ) (h : ∀ i, w - n ≤ i → y.getLsbD i = false) :
    (round poly)^[n] (y <<< n) = y := by
  induction n with
  | zero => simp
  | succ n ih =>
    have htop : (y <<< n).getLsbD (w - 1) = false := by
      rw [BitVec.getLsbD_shiftLeft, h _ (by omega), Bool.and_false]
    rw [Function.iterate_succ_apply, BitVec.shiftLeft_add, round_shiftLeft htop]
    exact ih fun i hi => h i (by omega)

/-- A polynomial whose top bit is set loses nothing. -/
theorem round_injective (hpoly : poly.getLsbD (w - 1) = true) :
    Function.Injective (round poly) := by
  -- by linearity it is enough that only zero goes to zero
  have hzero : ∀ d : BitVec w, round poly d = 0#w → d = 0#w := by
    intro d hd
    unfold round at hd
    cases hlow : d.getLsbD 0 with
    | true =>
      rw [hlow, if_pos rfl, BitVec.xor_eq_zero_iff] at hd
      have htop : (d >>> 1).getLsbD (w - 1) = false := by
        rw [BitVec.getLsbD_ushiftRight]
        exact BitVec.getLsbD_of_ge d _ (by omega)
      rw [hd, hpoly] at htop
      cases htop
    | false =>
      rw [hlow, if_neg Bool.false_ne_true] at hd
      refine BitVec.eq_of_getLsbD_eq fun i _ => ?_
      cases i with
      | zero => rw [hlow]; simp
      | succ i =>
        have hbit := congrArg (BitVec.getLsbD · i) hd
        rw [BitVec.getLsbD_ushiftRight, Nat.add_comm] at hbit
        rw [hbit]
        simp
  intro a b hab
  refine BitVec.xor_eq_zero_iff.1 (hzero _ ?_)
  rw [round_xor, hab, BitVec.xor_self]

theorem addBit_injective (b : Bool) : Function.Injective fun c : BitVec w => addBit c b :=
  fun _ _ h => (BitVec.xor_left_inj _).1 h

/-- Registers that differ still differ after the rest of the message. -/
theorem feed_injective (hpoly : poly.getLsbD (w - 1) = true) (bits : List Bool) :
    Function.Injective (feed poly bits) := by
  induction bits with
  | nil => exact fun _ _ h => h
  | cons b bits ih => exact ih.comp ((round_injective hpoly).comp (addBit_injective b))

/-! ### Many bits at once -/

theorem getLsbD_pack (w : ℕ) (bits : List Bool) (i : ℕ) :
    (pack w bits).getLsbD i = (decide (i < w) && bits[i]?.getD false) := by
  induction bits generalizing i with
  | nil => simp [pack]
  | cons b bits ih =>
    rw [pack, BitVec.getLsbD_xor, BitVec.getLsbD_shiftLeft, BitVec.getLsbD_setWidth]
    cases i with
    | zero => simp
    | succ i =>
      rw [Nat.add_sub_cancel, ih, List.getElem?_cons_succ]
      by_cases hi : i + 1 < w
      · simp [hi, Nat.lt_of_succ_lt hi]
      · simp [hi]

/-- As many bits as the register is wide can be added at once. -/
theorem feed_eq_rounds (h : bits.length ≤ w) (c : BitVec w) :
    feed poly bits c = (round poly)^[bits.length] (c ^^^ pack w bits) := by
  induction bits generalizing c with
  | nil => exact (BitVec.xor_zero).symm
  | cons b bits ih =>
    rw [List.length_cons] at h
    have htop : (pack w bits).getLsbD (w - 1) = false := by
      rw [getLsbD_pack, List.getElem?_eq_none (by omega), Option.getD_none, Bool.and_false]
    rw [feed, List.foldl_cons, ← feed, ih (Nat.le_of_succ_le h), List.length_cons,
      Function.iterate_succ_apply, pack, ← BitVec.xor_assoc, round_xor (c ^^^ _),
      round_shiftLeft htop, addBit]

/-- Different messages of the same number of bits, no more than the register has. -/
theorem eq_of_feed_eq (hpoly : poly.getLsbD (w - 1) = true) (hlen : bits.length = bits'.length)
    (hw : bits.length ≤ w) (h : feed poly bits c = feed poly bits' c) : bits = bits' := by
  rw [feed_eq_rounds hw, feed_eq_rounds (hlen ▸ hw), ← hlen] at h
  have hpack : pack w bits = pack w bits' :=
    (BitVec.xor_right_inj c).1 ((round_injective hpoly).iterate _ h)
  refine List.ext_getElem hlen fun i hi hi' => ?_
  have hbit := congrArg (BitVec.getLsbD · i) hpack
  simp only [getLsbD_pack] at hbit
  rw [decide_eq_true (Nat.lt_of_lt_of_le hi hw), List.getElem?_eq_getElem hi,
    List.getElem?_eq_getElem hi'] at hbit
  exact hbit

/-- **A burst** no longer than the register changes it, whatever stands before and behind. -/
theorem feed_burst_ne (hpoly : poly.getLsbD (w - 1) = true) (before after : List Bool)
    (hlen : bits.length = bits'.length) (hw : bits.length ≤ w) (hne : bits ≠ bits') :
    feed poly (before ++ (bits ++ after)) c ≠ feed poly (before ++ (bits' ++ after)) c := by
  intro h
  rw [feed_append, feed_append, feed_append, feed_append] at h
  exact hne (eq_of_feed_eq hpoly hlen hw (feed_injective hpoly after h))

/-! ### A byte at a time -/

/-- The bits of a byte, the least significant first. -/
def bitsOf (b : UInt8) : List Bool := (List.range 8).map b.toBitVec.getLsbD

@[simp] theorem length_bitsOf (b : UInt8) : (bitsOf b).length = 8 := by simp [bitsOf]

theorem bitsOf_injective : Function.Injective bitsOf := by
  intro a b h
  refine UInt8.toBitVec_inj.1 (BitVec.eq_of_getLsbD_eq fun i hi => ?_)
  have hget := congrArg (·[i]?) h
  simpa [bitsOf, hi] using hget

theorem pack_bitsOf (w : ℕ) (b : UInt8) : pack w (bitsOf b) = b.toBitVec.setWidth w := by
  refine BitVec.eq_of_getLsbD_eq fun i hi => ?_
  rw [getLsbD_pack, BitVec.getLsbD_setWidth]
  by_cases h8 : i < 8
  · simp [bitsOf, h8]
  · rw [BitVec.getLsbD_of_ge b.toBitVec i (by omega), List.getElem?_eq_none (by simpa using h8)]
    simp

/-- The bits of a message of bytes. -/
def bitsOfBytes (data : List UInt8) : List Bool := data.flatMap bitsOf

theorem length_bitsOfBytes (data : List UInt8) : (bitsOfBytes data).length = 8 * data.length := by
  induction data with
  | nil => rfl
  | cons b data ih =>
    rw [bitsOfBytes, List.flatMap_cons, List.length_append, length_bitsOf, ← bitsOfBytes, ih,
      List.length_cons]
    omega

theorem bitsOfBytes_injective : Function.Injective bitsOfBytes := by
  intro data
  induction data with
  | nil =>
    intro data' h
    have hlen := congrArg List.length h
    rw [length_bitsOfBytes, length_bitsOfBytes, List.length_nil] at hlen
    exact (List.length_eq_zero_iff.1 (by omega)).symm
  | cons b data ih =>
    intro data' h
    cases data' with
    | nil =>
      have hlen := congrArg List.length h
      rw [length_bitsOfBytes, length_bitsOfBytes] at hlen
      simp at hlen
    | cons b' data' =>
      obtain ⟨hb, hdata⟩ := List.append_inj (show bitsOf b ++ bitsOfBytes data =
        bitsOf b' ++ bitsOfBytes data' from h) (by simp)
      rw [bitsOf_injective hb, ih hdata]

/-- Eight rounds: those of the low byte, and the rest moved down. -/
theorem rounds_eight (x : BitVec w) : (round poly)^[8] x =
    (round poly)^[8] (x &&& 255#w) ^^^ (x >>> 8) := by
  have hsplit : x = (x &&& 255#w) ^^^ ((x >>> 8) <<< 8) := by
    refine BitVec.eq_of_getLsbD_eq fun i hi => ?_
    have h255 : (255#w).getLsbD i = decide (i < 8) := by
      rw [BitVec.getLsbD_ofNat, show 255 = 2 ^ 8 - 1 from rfl, Nat.testBit_two_pow_sub_one]
      simp [hi]
    rw [BitVec.getLsbD_xor, BitVec.getLsbD_and, h255, BitVec.getLsbD_shiftLeft,
      BitVec.getLsbD_ushiftRight]
    by_cases h8 : i < 8
    · simp [h8]
    · simp [h8, hi, show 8 + (i - 8) = i by omega]
  conv_lhs => rw [hsplit]
  rw [iterate_round_xor, iterate_round_shiftLeft 8]
  intro i hi
  rw [BitVec.getLsbD_ushiftRight]
  exact BitVec.getLsbD_of_ge x _ (by omega)

/-- **The table step** takes a byte. -/
theorem feed_bitsOf (h : 8 ≤ w) (b : UInt8) (c : BitVec w) : feed poly (bitsOf b) c =
    (round poly)^[8] ((c ^^^ b.toBitVec.setWidth w) &&& 255#w) ^^^ (c >>> 8) := by
  have hhigh : b.toBitVec.setWidth w >>> 8 = 0#w := by
    refine BitVec.eq_of_getLsbD_eq fun i hi => ?_
    rw [BitVec.getLsbD_ushiftRight, BitVec.getLsbD_setWidth,
      BitVec.getLsbD_of_ge b.toBitVec _ (by omega)]
    simp
  rw [feed_eq_rounds (by simpa using h), length_bitsOf, pack_bitsOf, rounds_eight,
    BitVec.ushiftRight_xor_distrib, hhigh, BitVec.xor_zero]

end Crc

end Vdb
