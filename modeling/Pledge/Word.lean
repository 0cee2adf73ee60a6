-- Words of the machine: 64-bit signed integers, which wrap, and the checked
-- ways to come to one from an integer and to leave one for a smaller type.

namespace Pledge

abbrev Word := Int64

namespace Word

/-- The integers that a word can hold. -/
def Fits (n : Int) : Prop := -0x8000000000000000 ≤ n ∧ n < 0x8000000000000000

instance (n : Int) : Decidable (Fits n) :=
  inferInstanceAs (Decidable (-0x8000000000000000 ≤ n ∧ n < 0x8000000000000000))

/-- The word of an integer, if it fits. -/
def ofInt? (n : Int) : Option Word :=
  if Fits n then some (Int64.ofInt n) else none

/-- The sum of two words, if it fits. -/
def addExact? (a b : Word) : Option Word :=
  ofInt? (a.toInt + b.toInt)

/-- The product of two words, if it fits. -/
def mulExact? (a b : Word) : Option Word :=
  ofInt? (a.toInt * b.toInt)

/-- The word with its sign changed, if it fits. -/
def negExact? (a : Word) : Option Word :=
  ofInt? (-a.toInt)

/-- The word as an unsigned 32-bit number: a slot, a height or a code address. -/
def toUInt32? (w : Word) : Option UInt32 :=
  if 0 ≤ w.toInt ∧ w.toInt < 0x100000000 then some (UInt32.ofNat w.toInt.toNat) else none

/-! ## Natural numbers in words -/

theorem ofInt?_natCast {n : Nat} (h : n < 0x8000000000000000) :
    ofInt? n = some (Int64.ofNat n) := by
  have hfits : Fits n := by
    unfold Fits
    omega
  rw [ofInt?, if_pos hfits]
  rfl

theorem ofInt?_natCast_of_le {n : Nat} (h : 0x8000000000000000 ≤ n) : ofInt? n = none := by
  have hfits : ¬ Fits n := by
    unfold Fits
    omega
  rw [ofInt?, if_neg hfits]

section

variable {n k : Nat} (hn : n < 0x8000000000000000) (hk : k < 0x8000000000000000)
include hn hk

theorem addExact?_ofNat : addExact? (Int64.ofNat n) (Int64.ofNat k) = ofInt? (n + k : Nat) := by
  rw [addExact?, Int64.toInt_ofNat_of_lt hn, Int64.toInt_ofNat_of_lt hk, Int.natCast_add]

theorem mulExact?_ofNat : mulExact? (Int64.ofNat n) (Int64.ofNat k) = ofInt? (n * k : Nat) := by
  rw [mulExact?, Int64.toInt_ofNat_of_lt hn, Int64.toInt_ofNat_of_lt hk, Int.natCast_mul]

end

end Word

end Pledge
