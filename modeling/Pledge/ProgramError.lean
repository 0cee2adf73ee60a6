-- What can be wrong with a program: with its assembly, with its code, or with
-- the container that carries it.
import Pledge.Text.Base58
import Pledge.Text.Numbers
import Pledge.Wire

namespace Pledge

/-- Why bytes or a text are not a container, or operands not those of an opcode. -/
inductive Malformed where
  | truncated
  | unsupportedVersion
  | negativePageCount
  | codeLengthDisagrees
  | dataLengthDisagrees
  | trailingBytes
  | notBase58 (reason : Base58.Error)
  | operandMismatch (offset : Nat)
  | wire (reason : Wire.Error)
  /-- A cause that is known by its wording only. -/
  | other (reason : String)
  deriving DecidableEq, Repr

def Malformed.message : Malformed → String
  | .truncated => "truncated"
  | .unsupportedVersion => "unsupported version"
  | .negativePageCount => "negative page count"
  | .codeLengthDisagrees => "code length disagrees with page count"
  | .dataLengthDisagrees => "data length disagrees with page count"
  | .trailingBytes => "trailing bytes"
  | .notBase58 reason => s!"invalid Base58: {reason.message}"
  | .operandMismatch offset => s!"operand mismatch at {offset}"
  | .wire reason => reason.message
  | .other reason => reason

/-- What can be wrong with a program. -/
inductive ProgramError where
  /-- A label is used that no pass has placed. -/
  | undefinedLabel (label : String)
  /-- A label is placed twice in one pass. -/
  | duplicateLabel (label : String)
  /-- The passes place a label differently. -/
  | labelMoved (label : String) (first second : Nat)
  /-- The passes give code of different lengths. -/
  | lengthDiverged (first second : Nat)
  /-- A branch target does not fit in a signed byte. -/
  | branchOutOfRange (label : String) (source target : Nat)
  /-- A code address does not fit in 32 bits. -/
  | addressOverflow (offset : Nat)
  | invalidOpcode (byte : UInt8) (offset : Nat)
  | invalidFunction (code : UInt16) (offset : Nat)
  /-- The code ends where an instruction should begin or go on. -/
  | endOfCode (offset : Nat)
  /-- The container cannot describe a segment of this size. -/
  | segmentTooLarge (segment : String) (len : Nat)
  /-- The data segment is not made of whole words. -/
  | misalignedData (len : Nat)
  | malformed (reason : Malformed)
  deriving DecidableEq, Repr

def ProgramError.message : ProgramError → String
  | .undefinedLabel label => s!"undefined label: {label}"
  | .duplicateLabel label => s!"duplicate label: {label}"
  | .labelMoved label first second =>
    s!"label {label} moved between passes: {first} then {second}"
  | .lengthDiverged first second =>
    s!"code length diverged between passes: {first} then {second}"
  | .branchOutOfRange label source target =>
    s!"branch at {source} to {label} ({target}) is out of range"
  | .addressOverflow offset => s!"code address {offset} does not fit in 32 bits"
  | .invalidOpcode byte offset =>
    let digits := String.ofList (Text.paddedHex 2 byte.toNat)
    s!"invalid opcode 0x{digits} at {offset}"
  | .invalidFunction code offset =>
    let digits := String.ofList (Text.paddedHex 4 code.toNat)
    s!"invalid function code 0x{digits} at {offset}"
  | .endOfCode offset => s!"unexpected end of code at {offset}"
  | .segmentTooLarge segment len => s!"{segment} segment of {len} bytes is too large"
  | .misalignedData len => s!"data segment of {len} bytes is not a multiple of 8"
  | .malformed reason => s!"decoding error: {reason.message}"

end Pledge
