-- The container of a program: a header, a code segment and a data segment.
-- Its bytes are what is deployed, and its text form is their Base58.
import Pledge.Digest
import Pledge.ProgramError
import Pledge.Text.Base58
import Pledge.Text.Characters

namespace Pledge

/-- The header of a container. A page of code is a byte, and a page of data is a word. -/
structure Header where
  version : Int16
  reserved : Int16
  codePages : Int16
  dataPages : Int16
  callStackPages : Int16
  userStackPages : Int16
  /-- The smallest payment that wakes the program. -/
  minActivation : Int64
  deriving DecidableEq, Repr

namespace Header

/-- The fields, in order. -/
instance : Wire.Encode Header where
  pieces h :=
    Wire.Encode.pieces h.version ++ Wire.Encode.pieces h.reserved ++
      Wire.Encode.pieces h.codePages ++ Wire.Encode.pieces h.dataPages ++
      Wire.Encode.pieces h.callStackPages ++ Wire.Encode.pieces h.userStackPages ++
      Wire.Encode.pieces h.minActivation

instance : Wire.Decode Header where
  read := return {
    version := ← Wire.Decode.read
    reserved := ← Wire.Decode.read
    codePages := ← Wire.Decode.read
    dataPages := ← Wire.Decode.read
    callStackPages := ← Wire.Decode.read
    userStackPages := ← Wire.Decode.read
    minActivation := ← Wire.Decode.read }

end Header

/-- A program ready to be deployed. -/
structure Container where
  header : Header
  code : Bytes
  data : Bytes
  deriving DecidableEq, Repr

namespace Container

/-- The only version of the format. -/
def formatVersion : Int16 := 2

/-- The length of a data word in bytes. -/
def wordSize : Nat := 8

/-- The most pages that a header can count. -/
def maxPages : Nat := 32767

/-- The number of pages of a segment, as the header holds it. -/
def pageCount (segment : String) (pages : Nat) : Except ProgramError Int16 :=
  if pages ≤ maxPages then .ok (Int16.ofNat pages) else .error (.segmentTooLarge segment pages)

/-- Wraps two segments, with no stacks and no smallest payment. -/
def wrap (code data : Bytes) : Except ProgramError Container := do
  if data.length % wordSize ≠ 0 then throw (.misalignedData data.length)
  let codePages ← pageCount "code" code.length
  let dataPages ← pageCount "data" (data.length / wordSize)
  return {
    header := {
      version := formatVersion
      reserved := 0
      codePages := codePages
      dataPages := dataPages
      callStackPages := 0
      userStackPages := 0
      minActivation := 0 }
    code := code
    data := data }

def withStackPages (c : Container) (call user : Int16) : Container :=
  { c with header := { c.header with callStackPages := call, userStackPages := user } }

def withMinActivation (c : Container) (amount : Int64) : Container :=
  { c with header := { c.header with minActivation := amount } }

/-- The digest of the code, which names the program whatever its data. -/
def codeHash (c : Container) : Digest := Digest.ofBytes c.code

/-! ## Bytes -/

/-- The width of the length in front of a segment, which follows from the length. -/
def lengthWidth (len : Nat) : Nat :=
  if len < 0x100 then 1 else if len < 0x10000 then 2 else 4

/-- The header, then each segment behind its length. -/
instance : Wire.Encode Container where
  pieces c :=
    Wire.Encode.pieces c.header ++
      [Wire.bigEndian (lengthWidth c.code.length) c.code.length, c.code,
        Wire.bigEndian (lengthWidth c.data.length) c.data.length, c.data]

/-- Reads from the front of the input; whatever ends too early is truncated. -/
def readFront {α : Type} (reader : Wire.Reader α) (input : Bytes) :
    Except ProgramError (α × Bytes) :=
  match reader input with
  | .ok a rest => .ok (a, rest)
  | .error _ _ => .error (.malformed .truncated)

/-- Reads a segment of `len` bytes behind its length. -/
def readSegment (len : Nat) (disagrees : Malformed) (input : Bytes) :
    Except ProgramError (Bytes × Bytes) := do
  let (declared, input) ← readFront (Wire.takeBytes (lengthWidth len)) input
  if Wire.valueOf declared ≠ len then throw (.malformed disagrees)
  readFront (Wire.takeBytes len) input

/-- Reads a container that takes up the whole input. -/
def ofBytes (input : Bytes) : Except ProgramError Container := do
  let (header, input) ← readFront (Wire.Decode.read : Wire.Reader Header) input
  if header.version ≠ formatVersion then throw (.malformed .unsupportedVersion)
  if header.codePages < 0 ∨ header.dataPages < 0 then throw (.malformed .negativePageCount)
  let (code, input) ← readSegment header.codePages.toInt.toNat .codeLengthDisagrees input
  let (data, input) ←
    readSegment (header.dataPages.toInt.toNat * wordSize) .dataLengthDisagrees input
  if input ≠ [] then throw (.malformed .trailingBytes)
  return ⟨header, code, data⟩

/-! ## Text -/

def text (c : Container) : String := Base58.encode (Wire.toBytes c)

/-- Reads the text form. Blanks around it do not count. -/
def parse (text : String) : Except ProgramError Container :=
  match Base58.decode (String.ofList (Text.trim text.toList)) with
  | .ok bs => ofBytes bs
  | .error reason => .error (.malformed (.notBase58 reason))

end Container

end Pledge
