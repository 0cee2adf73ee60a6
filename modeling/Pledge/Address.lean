-- Addresses of accounts: a version, a payload of twenty bytes and, in the
-- byte form, four bytes of checksum. The text form is Base58.
import Pledge.Digest
import Pledge.Text.Base58
import Pledge.Word

namespace Pledge

/-- Four words in a row, as one register holds them. -/
abbrev Quad := Vector Word 4

namespace Quad

def first (q : Quad) : Word := q[0]

def second (q : Quad) : Word := q[1]

def third (q : Quad) : Word := q[2]

def fourth (q : Quad) : Word := q[3]

end Quad

/-- What kind of account an address names. -/
inductive Address.Version where
  /-- A regular account. Its text begins with Q. -/
  | account
  /-- An automated transaction. Its text begins with A. -/
  | automated
  deriving DecidableEq, Repr

namespace Address.Version

/-- The byte in front of the payload. -/
def byte : Version → UInt8
  | account => 58
  | automated => 23

def ofByte? (b : UInt8) : Option Version :=
  if b = 58 then some account
  else if b = 23 then some automated
  else none

end Address.Version

/-- An address. Its checksum is a function of the rest and so is not kept. -/
structure Address where
  version : Address.Version
  payload : Vector UInt8 20
  deriving DecidableEq, Repr

namespace Address

def size : Nat := 25

/-- Why bytes or a text are not an address. -/
inductive Error where
  | notBase58 (reason : Base58.Error)
  | invalidLength (actual : Nat)
  | unknownVersion (version : UInt8)
  | checksumMismatch
  deriving DecidableEq, Repr

def Error.message : Error → String
  | .notBase58 reason => s!"not valid Base58: {reason.message}"
  | .invalidLength actual => s!"expected 25 bytes, got {actual}"
  | .unknownVersion version => s!"unknown address version {version.toNat}"
  | .checksumMismatch => "checksum mismatch"

/-- The first four bytes of the double digest. -/
def checksum (body : Bytes) : Bytes := (Digest.double body).bytes.take 4

/-- Version and payload, which the checksum covers. -/
def body (a : Address) : Bytes := a.version.byte :: a.payload.toList

/-- The twenty-five bytes of an address. -/
def toBytes (a : Address) : Bytes := a.body ++ checksum a.body

/-- The bytes cut off or filled up with zeros to `n` of them. -/
def padded (a : Address) (n : Nat) : Bytes :=
  (a.toBytes ++ List.replicate n 0).take n

theorem length_padded (a : Address) (n : Nat) : (a.padded n).length = n := by
  simp [padded]

def text (a : Address) : String := Base58.encode a.toBytes

/-- Reads the byte form. Length, version and checksum are checked in this order. -/
def ofBytes (bs : Bytes) : Except Error Address :=
  match bs with
  | [] => .error (.invalidLength 0)
  | v :: rest =>
    if h : rest.length = 24 then
      match Version.ofByte? v with
      | none => .error (.unknownVersion v)
      | some version =>
        let a : Address := ⟨version, ⟨(rest.take 20).toArray, by simp [h]⟩⟩
        if checksum a.body = rest.drop 20 then .ok a else .error .checksumMismatch
    else .error (.invalidLength (rest.length + 1))

def parse (text : String) : Except Error Address :=
  match Base58.decode text with
  | .ok bs => ofBytes bs
  | .error reason => .error (.notBase58 reason)

/-- The address in four words, the last seven bytes zero. -/
def toWords (a : Address) : Quad :=
  let bs := a.padded 32
  Vector.ofFn fun i : Fin 4 => Wire.scalarOf ((bs.drop (8 * i.val)).take 8)

/-- The address in the first twenty-five bytes of four words. -/
def ofWords (ws : Quad) : Except Error Address :=
  ofBytes ((Wire.bytesOfWords ws.toList).take size)

end Address

end Pledge
