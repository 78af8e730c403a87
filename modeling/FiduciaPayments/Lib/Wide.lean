import Mathlib.Algebra.Group.Int.Defs

/-!
# Widened differences of 64-bit integers

The difference of two `i64`s needs 65 bits. Rust's way around the overflow is
to widen both to `i128`, subtract, take the magnitude as a `u128` and compare
it with a widened `u64`; the difference itself is narrowed back with
saturation. Here `i128` and `u128` are 128-bit words with wrapping
operations, and the theorems say that on widened operands nothing wraps:

* `ssubOverflow_ofI64`, `toInt_sub_ofI64`: the difference is exact;
* `toNat_unsignedAbs`: so is its magnitude;
* `toInt_saturateI64`: narrowing clamps to the range of `i64`.
-/

namespace Lib.Wide

/-- A signed 128-bit integer, in two's complement. -/
abbrev I128 := BitVec 128

/-- An unsigned 128-bit integer. -/
abbrev U128 := BitVec 128

/-- `i128::from` of an `i64`. -/
def I128.ofI64 (x : Int64) : I128 := x.toBitVec.signExtend 128

/-- `u128::from` of a `u64`. -/
def U128.ofU64 (x : UInt64) : U128 := x.toBitVec.setWidth 128

/-- `i128::unsigned_abs`. -/
def I128.unsignedAbs (x : I128) : U128 := x.abs

/-- `i128::is_negative`. -/
def I128.isNegative (x : I128) : Bool := x.msb

/-- `i64::try_from` of an `i128`. -/
def I128.tryIntoI64 (x : I128) : Option Int64 :=
  if Int64.minValue.toInt ≤ x.toInt ∧ x.toInt ≤ Int64.maxValue.toInt then some (Int64.ofInt x.toInt)
  else none

/-- The nearest `i64`. -/
def I128.saturateI64 (x : I128) : Int64 :=
  x.tryIntoI64.getD (if x.isNegative then Int64.minValue else Int64.maxValue)

@[simp] theorem toInt_ofI64 (x : Int64) : (I128.ofI64 x).toInt = x.toInt :=
  BitVec.toInt_signExtend_of_le (by decide)

@[simp] theorem toNat_ofU64 (x : UInt64) : (U128.ofU64 x).toNat = x.toNat := by
  unfold U128.ofU64
  rw [BitVec.toNat_setWidth_of_le (by decide)]
  rfl

theorem bounds_sub (a b : Int64) :
    -2 ^ 127 ≤ a.toInt - b.toInt ∧ a.toInt - b.toInt < 2 ^ 127 := by
  have := a.le_toInt
  have := a.toInt_lt
  have := b.le_toInt
  have := b.toInt_lt
  omega

/-- Subtracting widened operands does not overflow. -/
theorem ssubOverflow_ofI64 (a b : Int64) :
    BitVec.ssubOverflow (I128.ofI64 a) (I128.ofI64 b) = false := by
  have := bounds_sub a b
  simp only [BitVec.ssubOverflow, toInt_ofI64]
  simp
  omega

/-- The widened difference is the integer difference. -/
theorem toInt_sub_ofI64 (a b : Int64) :
    (I128.ofI64 a - I128.ofI64 b).toInt = a.toInt - b.toInt := by
  have := bounds_sub a b
  rw [BitVec.toInt_sub, toInt_ofI64, toInt_ofI64, Int.bmod_eq_of_le (by omega) (by omega)]

/-- The magnitude is the integer's absolute value. -/
theorem toNat_unsignedAbs (x : I128) : x.unsignedAbs.toNat = x.toInt.natAbs := by
  have := x.isLt
  unfold I128.unsignedAbs
  rw [BitVec.toNat_abs, BitVec.toInt_eq_msb_cond]
  split <;> omega

theorem isNegative_iff (x : I128) : x.isNegative = true ↔ x.toInt < 0 := by
  unfold I128.isNegative
  rw [BitVec.msb_eq_toInt, decide_eq_true_iff]

/-- Saturation clamps to the range of `i64`. -/
theorem toInt_saturateI64 (x : I128) :
    x.saturateI64.toInt = max Int64.minValue.toInt (min Int64.maxValue.toInt x.toInt) := by
  have hmin : Int64.minValue.toInt = -2 ^ 63 := by decide
  have hmax : Int64.maxValue.toInt = 2 ^ 63 - 1 := by decide
  unfold I128.saturateI64 I128.tryIntoI64
  split
  · rename_i h
    rw [Option.getD_some, Int64.toInt_ofInt_of_le (by omega) (by omega)]
    omega
  · rw [Option.getD_none]
    split
    · rename_i h hneg
      have := (isNegative_iff x).mp hneg
      omega
    · rename_i h hneg
      have := mt (isNegative_iff x).mpr hneg
      omega

end Lib.Wide
