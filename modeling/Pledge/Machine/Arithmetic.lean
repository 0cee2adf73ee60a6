-- Arithmetic on words. Sums, differences and products wrap; a division that
-- has no result in a word has none at all.
import Pledge.Instruction.Basic

namespace Pledge

def UnaryOp.apply : UnaryOp → Word → Word
  | increment, w => w + 1
  | decrement, w => w - 1
  | complement, w => ~~~ w

namespace BinaryOp

/-- Whether a quotient has no result: the divisor is zero, or the least word is divided by minus
one. -/
def undefinedQuotient (a b : Word) : Bool := b == 0 || (a == Int64.minValue && b == -1)

/-- A shift by as many bits as a word has, or more, or by a negative number, leaves zero. -/
def inShiftRange (b : Word) : Bool := 0 ≤ b && b < 64

/-- The result of an operation. A shift to the right brings in zeros. -/
def apply : BinaryOp → Word → Word → Option Word
  | add, a, b => some (a + b)
  | sub, a, b => some (a - b)
  | mul, a, b => some (a * b)
  | div, a, b => if undefinedQuotient a b then none else some (a / b)
  | mod, a, b => if undefinedQuotient a b then none else some (a % b)
  | or, a, b => some (a ||| b)
  | and, a, b => some (a &&& b)
  | xor, a, b => some (a ^^^ b)
  | shl, a, b => some (if inShiftRange b then a <<< b else 0)
  | shr, a, b => some (if inShiftRange b then (a.toUInt64 >>> b.toUInt64).toInt64 else 0)

end BinaryOp

def Comparison.holds : Comparison → Word → Word → Bool
  | gt, a, b => b < a
  | lt, a, b => a < b
  | ge, a, b => b ≤ a
  | le, a, b => a ≤ b
  | eq, a, b => a == b
  | ne, a, b => a != b

def BitOp.apply : BitOp → Word → Word → Word
  | or, a, b => a ||| b
  | and, a, b => a &&& b
  | xor, a, b => a ^^^ b

end Pledge
