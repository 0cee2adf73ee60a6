-- Numbers as text: the digits of a natural number in any base, and the reader
-- of 64-bit integers, which names the first thing that is wrong with a text.
import Pledge.Word

namespace Pledge.Text

/-! ## Digits in any base, the most significant first -/

/-- Puts the digits of `n` in base `base` in front of `low`. -/
def digitsOnto (base n : Nat) (low : List Nat) : List Nat :=
  if _ : base < 2 ∨ n = 0 then low
  else digitsOnto base (n / base) (n % base :: low)
termination_by n
decreasing_by exact Nat.div_lt_self (by omega) (by omega)

/-- The digits of `n` in base `base`. Zero has none. -/
def digits (base n : Nat) : List Nat := digitsOnto base n []

/-- The number that a list of digits stands for. -/
def ofDigits (base : Nat) (ds : List Nat) : Nat :=
  ds.foldl (fun n d => n * base + d) 0

/-! ## Hexadecimal digits, in lower case -/

/-- The hexadecimal digits of `n`, with zeros in front up to `width` of them. -/
def paddedHex (width n : Nat) : List Char :=
  (Nat.toDigits 16 n).leftpad width '0'

/-- Two digits for each byte. -/
def hexOfBytes (bs : List UInt8) : String :=
  String.ofList (bs.flatMap fun b => paddedHex 2 b.toNat)

/-! ## Decimal digits -/

/-- The decimal digits of `n`, with zeros in front up to `width` of them. -/
def paddedDecimal (width n : Nat) : List Char :=
  (Nat.toDigits 10 n).leftpad width '0'

def digitValue (c : Char) : Nat := c.toNat - 48

/-- Why a text is not a 64-bit integer. -/
inductive IntegerError where
  | empty
  | invalidDigit
  | tooLarge
  | tooSmall
  deriving DecidableEq, Repr

namespace IntegerError

def message : IntegerError → String
  | empty => "cannot parse integer from empty string"
  | invalidDigit => "invalid digit found in string"
  | tooLarge => "number too large to fit in target type"
  | tooSmall => "number too small to fit in target type"

end IntegerError

/-- Reads digits from the left onto `acc`, downwards when `negative`. A character that is no
digit is reported before the number it would overflow. -/
def readDigits (negative : Bool) : Int → List Char → Except IntegerError Word
  | acc, [] => .ok (Int64.ofInt acc)
  | acc, c :: cs =>
    if c.isDigit then
      let next := if negative then acc * 10 - digitValue c else acc * 10 + digitValue c
      if Word.Fits next then readDigits negative next cs
      else .error (if negative then .tooSmall else .tooLarge)
    else .error .invalidDigit

/-- Reads a 64-bit integer with at most one sign. -/
def readInteger (text : String) : Except IntegerError Word :=
  match text.toList with
  | [] => .error .empty
  | ['+'] => .error .invalidDigit
  | ['-'] => .error .invalidDigit
  | '+' :: ds => readDigits false 0 ds
  | '-' :: ds => readDigits true 0 ds
  | ds => readDigits false 0 ds

end Pledge.Text
