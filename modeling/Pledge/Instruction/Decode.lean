-- Decoding of code: first an opcode with the operands that its table row asks
-- for, then the typed instruction.
import Pledge.Instruction.Basic
import Pledge.ProgramError

namespace Pledge

/-- An instruction as it is found in code: where it stands, its opcode and its operands. Made by
hand, the operands may be any. -/
structure RawInstr where
  offset : Nat
  opcode : Opcode
  operands : List Operand
  deriving DecidableEq, Repr

/-- The position at a distance from another. Positions have 64 bits. -/
def positionAfter? (position : Nat) (distance : Int) : Option Nat :=
  let target := position + distance
  if 0 ≤ target ∧ target < 0x10000000000000000 then some target.toNat else none

namespace RawInstr

def size (r : RawInstr) : Nat := r.opcode.size

/-- The position behind the instruction. -/
def next? (r : RawInstr) : Option Nat := positionAfter? r.offset r.size

/-- Where the instruction may branch: the first offset that leads to a position. -/
def branchTarget? (r : RawInstr) : Option Nat :=
  r.operands.findSome? fun
    | .offset o => positionAfter? r.offset o.toInt
    | _ => none

/-- The code address that the instruction names. -/
def codeTarget? (r : RawInstr) : Option Nat :=
  r.operands.findSome? fun
    | .address a => some a.toNat
    | _ => none

/-- The typed instruction, if the operands begin with those that the opcode asks for. -/
def typed (r : RawInstr) : Except ProgramError Instr :=
  match InstrWith.ofOperands? r.opcode r.operands with
  | some i => .ok i
  | none => .error (.malformed (.operandMismatch r.offset))

end RawInstr

namespace Instr

/-- Reads an integer operand from the front of the input. -/
def readScalar {α : Type} [Wire.Decode α] (offset : Nat) (input : Bytes) :
    Except ProgramError (α × Bytes) :=
  match (Wire.Decode.read : Wire.Reader α) input with
  | .ok a rest => .ok (a, rest)
  | .error _ _ => .error (.endOfCode offset)

/-- Reads an operand of a kind from the front of the input. -/
def readOperand (offset : Nat) (kind : OperandKind) (input : Bytes) :
    Except ProgramError (Operand × Bytes) := do
  match kind with
  | .slot =>
    let (n, rest) ← readScalar offset input
    return (.slot n, rest)
  | .value =>
    let (v, rest) ← readScalar offset input
    return (.value v, rest)
  | .offset =>
    let (o, rest) ← readScalar offset input
    return (.offset o, rest)
  | .address =>
    let (a, rest) ← readScalar offset input
    return (.address a, rest)
  | .function =>
    let (code, rest) ← readScalar offset input
    match Function.ofCode? code with
    | some f => return (.function f, rest)
    | none => throw (.invalidFunction code offset)

def readOperands (offset : Nat) : List OperandKind → Bytes → Except ProgramError (List Operand)
  | [], _ => return []
  | kind :: kinds, input => do
    let (operand, rest) ← readOperand offset kind input
    let operands ← readOperands offset kinds rest
    return operand :: operands

/-- Decodes the instruction at the front of the input, which stands at `offset`. The causes of
failure are tried in this order: no byte, no such opcode, too few bytes, no such function. -/
def decodeFront (offset : Nat) : Bytes → Except ProgramError RawInstr
  | [] => throw (.endOfCode offset)
  | b :: rest =>
    match Opcode.ofByte? b with
    | none => throw (.invalidOpcode b offset)
    | some op => do
      let window := rest.take (op.size - 1)
      if window.length < op.size - 1 then throw (.endOfCode offset)
      let operands ← readOperands offset op.operands window
      return ⟨offset, op, operands⟩

/-- Decodes the instruction at an offset of the code. -/
def rawAt (code : Bytes) (offset : Nat) : Except ProgramError RawInstr :=
  decodeFront offset (code.drop offset)

/-- The typed instruction at an offset of the code. -/
def decodeAt (code : Bytes) (offset : Nat) : Except ProgramError Instr := do
  (← rawAt code offset).typed

/-- Decodes instructions one after the other and puts them behind `done`. -/
def decodeOnto (done : Array RawInstr) (offset : Nat) :
    Bytes → Except ProgramError (Array RawInstr)
  | [] => .ok done
  | b :: rest =>
    match decodeFront offset (b :: rest) with
    | .error e => .error e
    | .ok raw => decodeOnto (done.push raw) (offset + raw.size) (rest.drop (raw.size - 1))
termination_by input => input.length
decreasing_by simp only [List.length_drop, List.length_cons]; omega

def decodeAll (code : Bytes) : Except ProgramError (List RawInstr) :=
  Array.toList <$> decodeOnto #[] 0 code

/-- The typed instruction at a position of loaded code. It looks no further than an instruction
can be long. -/
def fetch (code : Array UInt8) (position : Nat) : Except ProgramError Instr := do
  (← decodeFront position (code.extract position (position + Opcode.maxSize)).toList).typed

end Instr

end Pledge
