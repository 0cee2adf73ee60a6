-- Listings of code: a line for each instruction with its offset, a mark if
-- something branches or jumps to it, its name and its operands. A label has a
-- line of its own above the instruction where it is placed.
import Pledge.Assembly.Labels
import Pledge.Instruction.Decode
import Pledge.Text.Characters

namespace Pledge.Listing

/-- An operand in a listing. An offset is shown as the position it leads to. -/
def operandText (r : RawInstr) (operand : Operand) : String :=
  match operand, r.branchTarget? with
  | .offset _, some target => Operand.positionText target
  | _, _ => operand.text

/-- The operands, separated by commas. -/
def operandsText (r : RawInstr) : String :=
  ", ".intercalate (r.operands.map (operandText r))

def instrLine (marked : Bool) (r : RawInstr) : String :=
  String.ofList (Text.trimEnd (
    Text.paddedHex 4 r.offset ++ [if marked then '>' else ' ', ' '] ++
      r.opcode.mnemonic.toList.rightpad 18 ' ' ++ ' ' :: (operandsText r).toList))

/-- Where an instruction leads: where it branches, or else where it jumps. -/
def target? (r : RawInstr) : Option Nat := r.branchTarget? <|> r.codeTarget?

/-- The lines of an instruction: its labels, then itself. -/
def linesOf (labels : Labels) (targets : List Nat) (r : RawInstr) : List String :=
  (labels.namesAt r.offset).map (· ++ ":") ++ [instrLine (targets.contains r.offset) r]

def lines (labels : Labels) (instrs : List RawInstr) : List String :=
  instrs.flatMap (linesOf labels (instrs.filterMap target?))

def withLabels (code : Bytes) (labels : Labels) : Except ProgramError String := do
  return Text.unlines (lines labels (← Instr.decodeAll code))

def plain (code : Bytes) : Except ProgramError String := withLabels code .empty

end Pledge.Listing
