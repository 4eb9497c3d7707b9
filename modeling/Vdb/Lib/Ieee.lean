import Mathlib.Algebra.Group.Nat.Defs
import Mathlib.Order.Monotone.Basic
import Mathlib.Data.Int.Order.Basic

/-!
# The order of floating-point numbers

The IEEE 754 order of the `binary64` numbers, on their bit patterns.  A finite number is a whole
multiple of the least positive one, so its value is an integer in that unit; an infinity gets the
value the next exponent would have.

* `units_le` : the absolute values are in the order of exponent and mantissa read as one number.
-/

namespace Vdb

namespace Ieee

def exponent (x : UInt64) : ℕ := x.toNat / 2 ^ 52 % 2 ^ 11

def mantissa (x : UInt64) : ℕ := x.toNat % 2 ^ 52

def IsNaN (x : UInt64) : Prop := exponent x = 2047 ∧ mantissa x ≠ 0

instance : DecidablePred IsNaN := fun x =>
  inferInstanceAs (Decidable (exponent x = 2047 ∧ mantissa x ≠ 0))

/-- The absolute value; a number without exponent is subnormal. -/
def units (exponent mantissa : ℕ) : ℕ :=
  if exponent = 0 then mantissa else (2 ^ 52 + mantissa) * 2 ^ (exponent - 1)

def value (x : UInt64) : ℤ :=
  if x.toNat < 2 ^ 63 then units (exponent x) (mantissa x)
  else -(units (exponent x) (mantissa x) : ℤ)

/-- The `<=` of two numbers. -/
def Le (x y : UInt64) : Prop := ¬ IsNaN x ∧ ¬ IsNaN y ∧ value x ≤ value y

instance (x y : UInt64) : Decidable (Le x y) :=
  inferInstanceAs (Decidable (¬ IsNaN x ∧ ¬ IsNaN y ∧ value x ≤ value y))

def posZero : UInt64 := 0

def negZero : UInt64 := 0x8000000000000000

theorem units_lt_succ (n : ℕ) :
    units (n / 2 ^ 52) (n % 2 ^ 52) < units ((n + 1) / 2 ^ 52) ((n + 1) % 2 ^ 52) := by
  have hm := Nat.mod_lt n (show 0 < 2 ^ 52 by decide)
  by_cases hlast : n % 2 ^ 52 + 1 = 2 ^ 52
  · -- the mantissa is full, and the exponent goes up
    have hdiv : (n + 1) / 2 ^ 52 = n / 2 ^ 52 + 1 := by omega
    have hmod : (n + 1) % 2 ^ 52 = 0 := by omega
    rw [hdiv, hmod, units, units, if_neg (Nat.succ_ne_zero _)]
    cases n / 2 ^ 52 with
    | zero =>
      rw [if_pos rfl]
      omega
    | succ e =>
      rw [if_neg (Nat.succ_ne_zero _), Nat.add_sub_cancel, Nat.add_sub_cancel,
        show 2 ^ (e + 1) = 2 ^ e * 2 from rfl,
        Nat.add_zero, Nat.mul_comm (2 ^ e) 2, ← Nat.mul_assoc]
      exact Nat.mul_lt_mul_of_pos_right (by omega) (Nat.two_pow_pos e)
  · have hdiv : (n + 1) / 2 ^ 52 = n / 2 ^ 52 := by omega
    have hmod : (n + 1) % 2 ^ 52 = n % 2 ^ 52 + 1 := by omega
    rw [hdiv, hmod, units, units]
    split_ifs
    · omega
    · exact Nat.mul_lt_mul_of_pos_right (by omega) (Nat.two_pow_pos _)

theorem units_le {m n : ℕ} : units (m / 2 ^ 52) (m % 2 ^ 52) ≤ units (n / 2 ^ 52) (n % 2 ^ 52) ↔
    m ≤ n :=
  (strictMono_nat_of_lt_succ (f := fun n => units (n / 2 ^ 52) (n % 2 ^ 52))
    units_lt_succ).le_iff_le

/-- The value of a pattern, by the number that exponent and mantissa make. -/
theorem value_eq (x : UInt64) : value x =
    if x.toNat < 2 ^ 63 then (units (x.toNat / 2 ^ 52) (x.toNat % 2 ^ 52) : ℤ)
    else -(units ((x.toNat - 2 ^ 63) / 2 ^ 52) ((x.toNat - 2 ^ 63) % 2 ^ 52) : ℤ) := by
  have hlt := x.toNat_lt
  unfold value exponent mantissa
  split_ifs with h
  · rw [Nat.mod_eq_of_lt (show x.toNat / 2 ^ 52 < 2 ^ 11 by omega)]
  · rw [show x.toNat / 2 ^ 52 % 2 ^ 11 = (x.toNat - 2 ^ 63) / 2 ^ 52 by omega,
      show x.toNat % 2 ^ 52 = (x.toNat - 2 ^ 63) % 2 ^ 52 by omega]

end Ieee

end Vdb
