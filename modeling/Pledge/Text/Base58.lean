-- Base58: bytes as a number in base 58. Each leading zero byte is one leading
-- '1', and the rest is the big-endian number without zeros in front.
import Pledge.Text.Characters
import Pledge.Text.Numbers

namespace Pledge.Base58

/-- The 58 digits, which leave out 0, O, I and l. -/
def alphabet : List Char :=
  "123456789ABCDEFGHJKLMNPQRSTUVWXYZabcdefghijkmnopqrstuvwxyz".toList

def digitChar (d : Nat) : Char := alphabet.getD d '1'

def digitOf? (c : Char) : Option Nat := alphabet.idxOf? c

/-- Why a text is not Base58: its first character outside the alphabet, and where it stands. -/
inductive Error where
  | invalidCharacter (c : Char) (index : Nat)
  | nonAscii (index : Nat)
  deriving DecidableEq, Repr

def Error.message : Error → String
  | .invalidCharacter c index =>
    s!"provided string contained invalid character {Text.quotedChar c} at byte {index}"
  | .nonAscii index =>
    s!"provided string contained non-ascii character starting at byte {index}"

/-- What is wrong with a character at a position, if anything. -/
def offence? (c : Char) (index : Nat) : Option Error :=
  if 128 ≤ c.toNat then some (.nonAscii index)
  else match digitOf? c with
    | none => some (.invalidCharacter c index)
    | some _ => none

def bytesOfDigits (ds : List Nat) : List UInt8 :=
  List.replicate (ds.takeWhile (· == 0)).length 0 ++
    (Text.digits 256 (Text.ofDigits 58 ds)).map UInt8.ofNat

def digitsOfBytes (bs : List UInt8) : List Nat :=
  List.replicate (bs.takeWhile (· == 0)).length 0 ++
    Text.digits 58 (Text.ofDigits 256 (bs.map UInt8.toNat))

/-- Reads Base58 text. All characters before the first offence are one byte long, so its index
is also its byte position. -/
def decode (text : String) : Except Error (List UInt8) :=
  let cs := text.toList
  match cs.zipIdx.findSome? fun (c, i) => offence? c i with
  | some e => .error e
  | none => .ok (bytesOfDigits (cs.filterMap digitOf?))

def encode (bs : List UInt8) : String :=
  String.ofList ((digitsOfBytes bs).map digitChar)

end Pledge.Base58
