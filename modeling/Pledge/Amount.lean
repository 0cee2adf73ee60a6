-- Amounts of money: whole numbers of units, a hundred millionth each, read
-- and printed as decimals.
import Pledge.Text.Numbers

namespace Pledge

/-- An amount in units of 10^-8. -/
structure Amount where
  units : Word
  deriving DecidableEq, Repr

namespace Amount

/-- How many fractional digits an amount has. -/
def decimals : Nat := 8

def unitsPerWhole : Nat := Nat.pow 10 decimals

/-- Why a text is not an amount. -/
inductive Error where
  | empty
  | invalidCharacter (c : Char)
  | tooPrecise
  | overflow
  deriving DecidableEq, Repr

def Error.message : Error → String
  | .empty => "empty amount"
  | .invalidCharacter c => "unexpected character '" ++ c.toString ++ "' in amount"
  | .tooPrecise => "more than 8 fractional digits"
  | .overflow => "amount does not fit in 64 bits"

/-! ## The parts of a text -/

/-- Splits off one leading sign; true stands for minus. -/
def splitSign : List Char → Bool × List Char
  | '-' :: rest => (true, rest)
  | '+' :: rest => (false, rest)
  | cs => (false, cs)

/-- Cuts at the first point into the whole and the fractional part. -/
def splitPoint (cs : List Char) : List Char × List Char :=
  (cs.takeWhile (· != '.'), (cs.dropWhile (· != '.')).drop 1)

/-! ## Reading

A number is built in a word, digit by digit. Where it may grow out of the word it is checked, and
the text is refused. Where it cannot, nothing is checked, and a number outside of its range would
end the program. -/

/-- Why reading stops: the text is no amount, or a number that is not checked is outside of its
range. -/
inductive Stop where
  | refused (reason : Error)
  | aborted
  deriving DecidableEq, Repr

/-- A number that is checked. -/
def checked : Option Word → Except Stop Word
  | some w => .ok w
  | none => .error (.refused .overflow)

/-- A number that is not checked. -/
def unchecked : Option Word → Except Stop Word
  | some w => .ok w
  | none => .error .aborted

/-- The value of a digit, as its distance from the first one. -/
def digit? (c : Char) : Option Word :=
  if 48 ≤ c.toNat then some (Int64.ofNat (Text.digitValue c)) else none

/-- A number with one more digit behind it. -/
def pushDigit (number : Word) (c : Char) : Except Stop Word := do
  let tens ← checked (Word.mulExact? number 10)
  let digit ← unchecked (digit? c)
  checked (Word.addExact? tens digit)

/-- Digits read from the left onto a number. -/
def pushDigits : Word → List Char → Except Stop Word
  | number, [] => .ok number
  | number, c :: cs => do
    let next ← pushDigit number c
    pushDigits next cs

/-- How many units the last digit of a fraction stands for. -/
def scale? (digits : Nat) : Option Word :=
  if digits ≤ decimals then Word.ofInt? (Nat.pow 10 (decimals - digits)) else none

/-- The units that digits before and after the point stand for. -/
def unitsOf (whole fraction : List Char) : Except Stop Word := do
  let number ← pushDigits 0 (whole ++ fraction)
  let scale ← unchecked (scale? fraction.length)
  checked (Word.mulExact? number scale)

def signed (negative : Bool) (units : Word) : Except Stop Word :=
  if negative then unchecked (Word.negExact? units) else .ok units

/-- The digits of a fraction that count: those before the zeros at its end. -/
def significant (fraction : List Char) : List Char :=
  (fraction.reverse.dropWhile (· == '0')).reverse

/-- Reads the two parts of a decimal. -/
def ofParts (negative : Bool) (whole fraction : List Char) : Except Stop Amount :=
  if whole.isEmpty && fraction.isEmpty then .error (.refused .empty)
  else match (whole ++ fraction).find? (fun c => !c.isDigit) with
    | some c => .error (.refused (.invalidCharacter c))
    | none =>
      let fraction := significant fraction
      if decimals < fraction.length then .error (.refused .tooPrecise)
      else do
        let units ← unitsOf whole fraction
        let amount ← signed negative units
        return ⟨amount⟩

/-- Reads an amount such as `10.4`, `-0.5` or `1000000`. -/
def read (text : String) : Except Stop Amount :=
  let (negative, body) := splitSign text.toList
  let (whole, fraction) := splitPoint body
  ofParts negative whole fraction

/-! ## What is read -/

theorem digit?_of_isDigit {c : Char} (hc : c.isDigit = true) :
    digit? c = some (Int64.ofNat (Text.digitValue c)) := by
  have hrange := Char.isDigit_iff_toNat.mp hc
  exact if_pos hrange.1

theorem digitValue_lt {c : Char} (hc : c.isDigit = true) : Text.digitValue c < 10 := by
  have hrange : c.toNat ≤ 57 := (Char.isDigit_iff_toNat.mp hc).2
  unfold Text.digitValue
  omega

/-- One more digit is refused where the number no longer fits, and the two checks are as one. -/
theorem pushDigit_ofNat {n : Nat} {c : Char} (hn : n < 0x8000000000000000) (hc : c.isDigit = true) :
    pushDigit (Int64.ofNat n) c = checked (Word.ofInt? (10 * n + Text.digitValue c : Nat)) := by
  have hdigit := digitValue_lt hc
  have htens : Word.mulExact? (Int64.ofNat n) 10 = Word.ofInt? (n * 10 : Nat) :=
    Word.mulExact?_ofNat hn (by decide)
  unfold pushDigit
  rw [htens, digit?_of_isDigit hc]
  by_cases hfits : n * 10 < 0x8000000000000000
  · rw [Word.ofInt?_natCast hfits, Nat.mul_comm, ← Word.addExact?_ofNat (by omega) (by omega)]
    rfl
  · rw [Word.ofInt?_natCast_of_le (by omega), Word.ofInt?_natCast_of_le (by omega)]
    rfl

theorem le_ofDigitChars (cs : List Char) (n : Nat) : n ≤ Nat.ofDigitChars 10 cs n := by
  induction cs generalizing n with
  | nil => exact Nat.le_refl n
  | cons c cs ih =>
    rw [Nat.ofDigitChars_cons]
    exact Nat.le_trans (by omega) (ih _)

/-- Digits are refused where their number does not fit. A number only grows, so none is refused too
early. -/
theorem pushDigits_ofNat {n : Nat} {cs : List Char} (hn : n < 0x8000000000000000)
    (hdigits : ∀ c ∈ cs, c.isDigit = true) :
    pushDigits (Int64.ofNat n) cs = checked (Word.ofInt? (Nat.ofDigitChars 10 cs n : Nat)) := by
  induction cs generalizing n with
  | nil =>
    rw [Nat.ofDigitChars_nil, Word.ofInt?_natCast hn]
    rfl
  | cons c cs ih =>
    obtain ⟨hc, hcs⟩ := List.forall_mem_cons.mp hdigits
    rw [pushDigits, pushDigit_ofNat hn hc, Nat.ofDigitChars_cons]
    by_cases hfits : 10 * n + Text.digitValue c < 0x8000000000000000
    · rw [Word.ofInt?_natCast hfits]
      exact ih hfits hcs
    · -- What does not fit by now does not fit with more digits behind it either.
      have hgrows := le_ofDigitChars cs (10 * n + Text.digitValue c)
      rw [Word.ofInt?_natCast_of_le (by omega)]
      exact (congrArg checked (Word.ofInt?_natCast_of_le (Nat.le_trans (by omega) hgrows))).symm

theorem scale?_of_le {digits : Nat} (h : digits ≤ decimals) :
    scale? digits = some (Int64.ofNat (Nat.pow 10 (decimals - digits))) := by
  have hlt : Nat.pow 10 (decimals - digits) < 0x8000000000000000 :=
    Nat.lt_of_le_of_lt (Nat.pow_le_pow_right (by decide) (Nat.sub_le decimals digits)) (by decide)
  rw [scale?, if_pos h, Word.ofInt?_natCast hlt]

/-- The units that digits stand for, however many they are. -/
def exactUnits (whole fraction : List Char) : Nat :=
  Nat.ofDigitChars 10 (whole ++ fraction) 0 * Nat.pow 10 (decimals - fraction.length)

/-- Units are refused where they do not fit, at whichever check. -/
theorem unitsOf_eq {whole fraction : List Char}
    (hdigits : ∀ c ∈ whole ++ fraction, c.isDigit = true)
    (hlength : fraction.length ≤ decimals) :
    unitsOf whole fraction = checked (Word.ofInt? (exactUnits whole fraction)) := by
  have hnumber : pushDigits 0 (whole ++ fraction) =
      checked (Word.ofInt? (Nat.ofDigitChars 10 (whole ++ fraction) 0 : Nat)) :=
    pushDigits_ofNat (by decide) hdigits
  have hscale : Nat.pow 10 (decimals - fraction.length) < 0x8000000000000000 :=
    Nat.lt_of_le_of_lt (Nat.pow_le_pow_right (by decide) (Nat.sub_le _ _)) (by decide)
  have hpos : 0 < Nat.pow 10 (decimals - fraction.length) := Nat.pow_pos (by decide)
  unfold unitsOf exactUnits
  rw [hnumber, scale?_of_le hlength]
  generalize Nat.ofDigitChars 10 (whole ++ fraction) 0 = number at *
  by_cases hfits : number < 0x8000000000000000
  · rw [Word.ofInt?_natCast hfits, ← Word.mulExact?_ofNat hfits hscale]
    rfl
  · have hgrows := Nat.le_mul_of_pos_right number hpos
    rw [Word.ofInt?_natCast_of_le (by omega), Word.ofInt?_natCast_of_le (by omega)]
    rfl

theorem signed_ofNat {n : Nat} (negative : Bool) (hn : n < 0x8000000000000000) :
    signed negative (Int64.ofNat n) = .ok (Int64.ofInt (if negative then -n else n)) := by
  cases negative with
  | false => rfl
  | true =>
    have hfits : Word.Fits (-n) := by
      unfold Word.Fits
      omega
    rw [signed, if_pos rfl, Word.negExact?, Int64.toInt_ofNat_of_lt hn, Word.ofInt?, if_pos hfits]
    rfl

theorem find?_eq_none_iff {cs : List Char} :
    cs.find? (fun c => !c.isDigit) = none ↔ ∀ c ∈ cs, c.isDigit = true := by
  simp

section

variable {negative : Bool} {whole fraction : List Char}

theorem ofParts_nil : ofParts negative [] [] = .error (.refused .empty) := rfl

theorem ofParts_of_find? {c : Char}
    (hfind : (whole ++ fraction).find? (fun c => !c.isDigit) = some c) :
    ofParts negative whole fraction = .error (.refused (.invalidCharacter c)) := by
  have hsome : ¬ (whole.isEmpty && fraction.isEmpty) = true := by
    intro h
    simp only [Bool.and_eq_true, List.isEmpty_iff] at h
    simp [h] at hfind
  rw [ofParts, if_neg hsome, hfind]

/-- Digits are read as they are written. -/
theorem ofParts_of_digits (hsome : whole ++ fraction ≠ [])
    (hdigits : ∀ c ∈ whole ++ fraction, c.isDigit = true) :
    ofParts negative whole fraction =
      let fraction := significant fraction
      if decimals < fraction.length then .error (.refused .tooPrecise)
      else if exactUnits whole fraction < 0x8000000000000000 then
        .ok ⟨Int64.ofInt
          (if negative then -exactUnits whole fraction else exactUnits whole fraction)⟩
      else .error (.refused .overflow) := by
  have hsome' : ¬ (whole.isEmpty && fraction.isEmpty) = true := by
    simpa [List.isEmpty_iff] using hsome
  have hfind := find?_eq_none_iff.mpr hdigits
  have hsub : ∀ c ∈ whole ++ significant fraction, c.isDigit = true := by
    intro c hc
    apply hdigits
    rcases List.mem_append.mp hc with hc | hc
    · exact List.mem_append_left _ hc
    · rw [significant, List.mem_reverse] at hc
      exact List.mem_append_right _ (List.mem_reverse.mp ((List.dropWhile_sublist _).subset hc))
  rw [ofParts, if_neg hsome', hfind]
  dsimp only
  split
  · rfl
  · rename_i hlength
    rw [unitsOf_eq hsub (Nat.le_of_not_lt hlength)]
    split
    · rename_i hfits
      rw [Word.ofInt?_natCast hfits]
      show signed negative _ >>= _ = _
      rw [signed_ofNat negative hfits]
      rfl
    · rename_i hfits
      rw [Word.ofInt?_natCast_of_le (Nat.le_of_not_lt hfits)]
      rfl

theorem ofParts_ne_aborted : ofParts negative whole fraction ≠ .error .aborted := by
  by_cases hsome : whole ++ fraction = []
  · obtain ⟨rfl, rfl⟩ := List.append_eq_nil_iff.mp hsome
    rw [ofParts_nil]
    simp
  · cases hfind : (whole ++ fraction).find? (fun c => !c.isDigit) with
    | some c =>
      rw [ofParts_of_find? hfind]
      simp
    | none =>
      rw [ofParts_of_digits hsome (find?_eq_none_iff.mp hfind)]
      dsimp only
      split
      · simp
      · split <;> simp

end

/-- Nothing that is not checked leaves its range. -/
theorem read_ne_aborted (text : String) : read text ≠ .error .aborted := ofParts_ne_aborted

/-- Reads an amount, or says what is wrong with the text. -/
def parse (text : String) : Except Error Amount :=
  match h : read text with
  | .ok a => .ok a
  | .error (.refused reason) => .error reason
  | .error .aborted => absurd h (read_ne_aborted text)

theorem parse_of_ok {text : String} {a : Amount} (h : read text = .ok a) : parse text = .ok a := by
  unfold parse
  split <;> simp_all

theorem parse_of_refused {text : String} {reason : Error}
    (h : read text = .error (.refused reason)) :
    parse text = .error reason := by
  unfold parse
  split <;> simp_all

/-! ## Printing -/

/-- The characters of an amount: sign, whole part, point and eight digits. -/
def chars (a : Amount) : List Char :=
  let n := a.units.toInt.natAbs
  let sign := if a.units.toInt < 0 then ['-'] else []
  sign ++ Nat.toDigits 10 (n / unitsPerWhole) ++ ['.'] ++
    Text.paddedDecimal decimals (n % unitsPerWhole)

def text (a : Amount) : String := String.ofList a.chars

end Amount

end Pledge
