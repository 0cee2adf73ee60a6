-- Operands of instructions. Branch offsets and code addresses may stand for
-- themselves or for labels, so their types are left open.
import Pledge.Instruction.Function
import Pledge.Instruction.Opcode
import Pledge.Text.Numbers
import Pledge.Wire
import Pledge.Word

namespace Pledge

/-- An operand whose branch offsets are of type `O` and code addresses of type `A`. -/
inductive OperandWith (O A : Type) where
  | slot (n : UInt32)
  | value (v : Word)
  | function (f : Function)
  | offset (o : O)
  | address (a : A)
  deriving DecidableEq, Repr

def OperandWith.kind {O A : Type} : OperandWith O A → OperandKind
  | slot _ => .slot
  | value _ => .value
  | function _ => .function
  | offset _ => .offset
  | address _ => .address

/-- An operand as code holds it. -/
abbrev Operand := OperandWith Int8 UInt32

namespace Operand

def bytes : Operand → Bytes
  | .slot n => Wire.scalarBytes n
  | .value v => Wire.scalarBytes v
  | .function f => Wire.scalarBytes f.code
  | .offset o => Wire.scalarBytes o
  | .address a => Wire.scalarBytes a

/-- A code position in a listing. -/
def positionText (n : Nat) : String := String.ofList (':' :: Text.paddedHex 4 n)

/-- The operand in a listing. An offset always has a sign. -/
def text : Operand → String
  | .slot n => "@" ++ toString n.toNat
  | .value v => "#" ++ toString v.toInt
  | .function f => f.mnemonic
  | .offset o => (if 0 ≤ o.toInt then "+" else "") ++ toString o.toInt
  | .address a => positionText a.toNat

/-- An operand has the width of its kind. -/
theorem length_bytes (o : Operand) : o.bytes.length = o.kind.width := by
  cases o <;> simp [bytes, OperandWith.kind, OperandKind.width, Wire.scalarBytes, Wire.Scalar.width]

end Operand

end Pledge
