-- The emitter: code and labels in the making. It runs in two passes. The
-- layout pass finds where each label lands, and the emit pass fills in the
-- operands that name labels.
import Pledge.Assembly.Labels
import Pledge.Instruction.Decode

namespace Pledge

/-- An operand that is given or that a label stands for. -/
inductive Ref (α : Type) where
  | exact (a : α)
  | label (name : String)
  deriving DecidableEq, Repr

/-- An instruction that may name labels. -/
abbrev Draft := InstrWith (Ref Int8) (Ref UInt32)

/-- The pass that an emitter is in. The emit pass knows the labels of the layout pass. -/
inductive Pass where
  | layout
  | emit (known : Labels)
  deriving DecidableEq, Repr

/-- Code and labels in the making. -/
structure Emitter where
  pass : Pass
  code : Array UInt8 := #[]
  labels : Labels := .empty
  deriving DecidableEq, Repr

namespace Emitter

/-- Where the next instruction goes. -/
def offset (e : Emitter) : Nat := e.code.size

def append (e : Emitter) (i : Instr) : Emitter :=
  { e with code := Wire.encodeInto e.code i }

def appendTimes (e : Emitter) (i : Instr) : Nat → Emitter
  | 0 => e
  | n + 1 => (e.append i).appendTimes i n

/-- Places a label at the current offset. -/
def place (e : Emitter) (label : String) : Except ProgramError Emitter :=
  if e.labels.contains label then .error (.duplicateLabel label)
  else
    let placed := { e with labels := e.labels.insert label e.offset }
    match e.pass with
    | .layout => .ok placed
    | .emit known =>
      match known.get? label with
      | none => .ok placed
      | some first =>
        if first = e.offset then .ok placed else .error (.labelMoved label first e.offset)

/-- The offset of a label. In the layout pass it may not be known yet; in the emit pass the layout
pass has to have placed it. -/
def lookup (e : Emitter) (label : String) : Except ProgramError (Option Nat) :=
  match e.pass with
  | .layout => .ok (e.labels.get? label)
  | .emit known =>
    match known.get? label with
    | some target => .ok (some target)
    | none => .error (.undefinedLabel label)

/-- The distance to a label from an instruction that begins here, or zero if it is not known
yet. -/
def branchOffset (e : Emitter) (label : String) : Except ProgramError Int8 := do
  match ← e.lookup label with
  | none => return 0
  | some target =>
    let distance : Int := (target : Int) - e.offset
    if -128 ≤ distance ∧ distance ≤ 127 then return Int8.ofInt distance
    else throw (.branchOutOfRange label e.offset target)

/-- The address of a label, or zero if it is not known yet. -/
def codeAddress (e : Emitter) (label : String) : Except ProgramError UInt32 := do
  match ← e.lookup label with
  | none => return 0
  | some target =>
    if target < 0x100000000 then return UInt32.ofNat target
    else throw (.addressOverflow target)

/-- The branch offset that a reference stands for. -/
def offsetOf (e : Emitter) : Ref Int8 → Except ProgramError Int8
  | .exact o => .ok o
  | .label name => e.branchOffset name

/-- The code address that a reference stands for. -/
def addressOf (e : Emitter) : Ref UInt32 → Except ProgramError UInt32
  | .exact a => .ok a
  | .label name => e.codeAddress name

/-- Fills in the labels of an instruction and appends it. -/
def emit (e : Emitter) (d : Draft) : Except ProgramError Emitter :=
  e.append <$> d.fillIn e.offsetOf e.addressOf

end Emitter

end Pledge
