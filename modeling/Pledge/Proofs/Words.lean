-- Words as integers: when a sum is exact, and what the packing of a height
-- and a number into a timestamp keeps of them.
import Mathlib.Algebra.Order.Ring.Int
import Pledge.Machine.Arithmetic
import Pledge.Machine.State

namespace Pledge

namespace Word

theorem toInt_ofInt {n : Int} (h : Fits n) : (Int64.ofInt n).toInt = n :=
  Int64.toInt_ofInt_of_le h.1 h.2

theorem fits_toInt (w : Word) : Fits w.toInt := ⟨w.le_toInt, w.toInt_lt⟩

/-- A number between two that fit, fits. -/
theorem fits_of_le {n m : Int} (h0 : 0 ≤ n) (hnm : n ≤ m) (hm : m < 2 ^ 63) : Fits n := by
  unfold Fits
  omega

theorem toInt_sub {a b : Word} (h : Fits (a.toInt - b.toInt)) :
    (a - b).toInt = a.toInt - b.toInt := by
  rw [Int64.toInt_sub]
  exact Int.bmod_eq_of_le (by unfold Fits at h; omega) (by unfold Fits at h; omega)

/-- The exact sum of two words is the sum of the integers. -/
theorem addExact?_eq_some {a b s : Word} (h : addExact? a b = some s) :
    s.toInt = a.toInt + b.toInt := by
  unfold addExact? ofInt? at h
  split at h
  · rename_i hf
    cases h
    exact toInt_ofInt hf
  · cases h

theorem addExact?_of_fits {a b : Word} (h : Fits (a.toInt + b.toInt)) :
    addExact? a b = some (Int64.ofInt (a.toInt + b.toInt)) := by
  simp [addExact?, ofInt?, h]

@[simp] theorem zero_le_iff {w : Word} : 0 ≤ w ↔ 0 ≤ w.toInt := by
  rw [Int64.le_iff_toInt_le, Int64.toInt_zero]

@[simp] theorem zero_lt_iff {w : Word} : 0 < w ↔ 0 < w.toInt := by
  rw [Int64.lt_iff_toInt_lt, Int64.toInt_zero]

end Word

/-! ## Timestamps -/

/-- Below half of all heights a timestamp is not negative. -/
theorem toInt_timestamp {height sequence : UInt32} (h : height.toNat < 2 ^ 31) :
    (timestamp height sequence).toInt = height.toNat * 2 ^ 32 + sequence.toNat := by
  have hs := sequence.toNat_lt
  unfold timestamp
  rw [Int64.toInt_ofNat_of_lt (by omega)]
  omega

/-- From there on it is negative. -/
theorem toInt_timestamp_of_le {height sequence : UInt32} (h : 2 ^ 31 ≤ height.toNat) :
    (timestamp height sequence).toInt = (height.toNat - 2 ^ 32) * 2 ^ 32 + sequence.toNat := by
  have hh := height.toNat_lt
  have hs := sequence.toNat_lt
  unfold timestamp
  rw [Int64.toInt_ofNat', Int64.size, Int.bmod_def]
  omega

/-- The upper half of a timestamp is its height, whatever the height. -/
theorem shr_timestamp (height sequence : UInt32) :
    BinaryOp.shr.apply (timestamp height sequence) 32 = some (Int64.ofNat height.toNat) := by
  have hh := height.toNat_lt
  have hs := sequence.toNat_lt
  have hshift : (UInt64.ofNat (height.toNat * 2 ^ 32 + sequence.toNat)) >>> (32 : UInt64) =
      UInt64.ofNat height.toNat := by
    apply UInt64.toNat_inj.mp
    rw [UInt64.toNat_shiftRight, UInt64.toNat_ofNat_of_lt' (by simp [UInt64.size]; omega),
      UInt64.toNat_ofNat_of_lt' (by simp [UInt64.size]; omega)]
    rw [show (32 : UInt64).toNat % 64 = 32 from rfl, Nat.shiftRight_eq_div_pow]
    omega
  have hto : (timestamp height sequence).toUInt64 =
      UInt64.ofNat (height.toNat * 2 ^ 32 + sequence.toNat) := rfl
  have hrange : BinaryOp.inShiftRange 32 = true := by decide
  simp only [BinaryOp.apply, hrange, if_true, hto]
  rw [show ((32 : Word).toUInt64) = (32 : UInt64) from rfl, hshift]
  rfl

theorem toUInt32?_ofNat {n : Nat} (h : n < 2 ^ 32) :
    Word.toUInt32? (Int64.ofNat n) = some (UInt32.ofNat n) := by
  unfold Word.toUInt32?
  rw [Int64.toInt_ofNat_of_lt (by omega), if_pos (by omega)]
  simp

end Pledge
