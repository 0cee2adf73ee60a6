-- The wire form of values: fixed-width big-endian integers, one after the
-- other, with no length in front and no padding. A value is written to any
-- sink as a sequence of pieces and read back from the front of a byte string.

namespace Pledge

abbrev Bytes := List UInt8

namespace Wire

/-! ## Big-endian numbers -/

/-- The low `width` bytes of `n`, the most significant first. -/
def bigEndian : Nat → Nat → Bytes
  | 0, _ => []
  | width + 1, n => UInt8.ofNat (n / Nat.pow 256 width) :: bigEndian width n

/-- The number that a byte string stands for. -/
def valueOf (bs : Bytes) : Nat :=
  bs.foldl (fun n b => n * 256 + b.toNat) 0

@[simp] theorem length_bigEndian (width n : Nat) : (bigEndian width n).length = width := by
  induction width with
  | zero => rfl
  | succ width ih => simp [bigEndian, ih]

/-! ## Sinks -/

/-- Something that bytes can be written to. -/
class Sink (σ : Type) where
  write : σ → Bytes → σ

/-- A growing buffer keeps the bytes. -/
instance : Sink (Array UInt8) where
  write buffer bs := buffer ++ bs

/-- The number of bytes written so far. -/
structure ByteCount where
  total : Nat := 0
  deriving DecidableEq, Repr

/-- A count keeps no bytes. -/
instance : Sink ByteCount where
  write count bs := ⟨count.total + bs.length⟩

/-! ## Writing -/

/-- A value with a wire form: the pieces it writes, in order. -/
class Encode (α : Type) where
  pieces : α → List Bytes

/-- Writes a value to a sink. -/
def encodeInto {σ α : Type} [Sink σ] [Encode α] (sink : σ) (a : α) : σ :=
  (Encode.pieces a).foldl Sink.write sink

/-- The wire form of a value. -/
def toBytes {α : Type} [Encode α] (a : α) : Bytes :=
  (encodeInto (#[] : Array UInt8) a).toList

/-- The size of the wire form, found without building it. -/
def encodedSize {α : Type} [Encode α] (a : α) : Nat :=
  (encodeInto ({} : ByteCount) a).total

/-! ## Reading -/

/-- Why bytes are not the wire form of a value. -/
inductive Error where
  | endOfInput
  | invalidValue
  deriving DecidableEq, Repr

def Error.message : Error → String
  | .endOfInput => "unexpected end of input"
  | .invalidValue => "invalid value"

/-- A reader takes bytes from the front of its input. Where it fails, what it has taken stays
taken. -/
abbrev Reader := EStateM Error Bytes

/-- Takes exactly `n` bytes, or none at all. -/
def takeBytes (n : Nat) : Reader Bytes := fun input =>
  if input.length < n then .error .endOfInput input
  else .ok (input.take n) (input.drop n)

/-- A value that can be read from its wire form. -/
class Decode (α : Type) where
  read : Reader α

/-- Reads a value that takes up the whole input. -/
def ofBytes {α : Type} [Decode α] (bs : Bytes) : Except Error α :=
  match Decode.read bs with
  | .ok a [] => .ok a
  | .ok _ _ => .error .invalidValue
  | .error e _ => .error e

/-! ## Integers -/

/-- A fixed-width integer: its width in bytes, and the natural number that its bits stand for. -/
class Scalar (α : Type) where
  width : Nat
  toNat : α → Nat
  ofNat : Nat → α
  toNat_lt : ∀ a : α, toNat a < Nat.pow 256 width
  ofNat_toNat : ∀ a : α, ofNat (toNat a) = a
  toNat_ofNat : ∀ n : Nat, n < Nat.pow 256 width → toNat (ofNat n) = n

instance : Scalar UInt8 where
  width := 1
  toNat := UInt8.toNat
  ofNat := UInt8.ofNat
  toNat_lt a := a.toNat_lt
  ofNat_toNat a := by simp
  toNat_ofNat n h := by simp at h ⊢; omega

instance : Scalar UInt16 where
  width := 2
  toNat := UInt16.toNat
  ofNat := UInt16.ofNat
  toNat_lt a := a.toNat_lt
  ofNat_toNat a := by simp
  toNat_ofNat n h := by simp at h ⊢; omega

instance : Scalar UInt32 where
  width := 4
  toNat := UInt32.toNat
  ofNat := UInt32.ofNat
  toNat_lt a := a.toNat_lt
  ofNat_toNat a := by simp
  toNat_ofNat n h := by simp at h ⊢; omega

instance : Scalar UInt64 where
  width := 8
  toNat := UInt64.toNat
  ofNat := UInt64.ofNat
  toNat_lt a := a.toNat_lt
  ofNat_toNat a := by simp
  toNat_ofNat n h := by simp at h ⊢; omega

instance : Scalar Int8 where
  width := 1
  toNat a := a.toUInt8.toNat
  ofNat n := (UInt8.ofNat n).toInt8
  toNat_lt a := a.toUInt8.toNat_lt
  ofNat_toNat a := by simp
  toNat_ofNat n h := by simp at h ⊢; omega

instance : Scalar Int16 where
  width := 2
  toNat a := a.toUInt16.toNat
  ofNat n := (UInt16.ofNat n).toInt16
  toNat_lt a := a.toUInt16.toNat_lt
  ofNat_toNat a := by simp
  toNat_ofNat n h := by simp at h ⊢; omega

instance : Scalar Int32 where
  width := 4
  toNat a := a.toUInt32.toNat
  ofNat n := (UInt32.ofNat n).toInt32
  toNat_lt a := a.toUInt32.toNat_lt
  ofNat_toNat a := by simp
  toNat_ofNat n h := by simp at h ⊢; omega

instance : Scalar Int64 where
  width := 8
  toNat a := a.toUInt64.toNat
  ofNat n := (UInt64.ofNat n).toInt64
  toNat_lt a := a.toUInt64.toNat_lt
  ofNat_toNat a := by simp
  toNat_ofNat n h := by simp at h ⊢; omega

def scalarBytes {α : Type} [Scalar α] (a : α) : Bytes :=
  bigEndian (Scalar.width α) (Scalar.toNat a)

theorem length_scalarBytes {α : Type} [Scalar α] (a : α) :
    (scalarBytes a).length = Scalar.width α := length_bigEndian _ _

/-- The integer that a byte string stands for. -/
def scalarOf {α : Type} [Scalar α] (bs : Bytes) : α :=
  Scalar.ofNat (valueOf bs)

instance {α : Type} [Scalar α] : Encode α where
  pieces a := [scalarBytes a]

instance {α : Type} [Scalar α] : Decode α where
  read := do
    let bs ← takeBytes (Scalar.width α)
    return scalarOf bs

/-! ## Vectors -/

instance {α : Type} {n : Nat} [Encode α] : Encode (Vector α n) where
  pieces v := v.toList.flatMap Encode.pieces

/-- Reads `n` values, one after the other. -/
def readVector {α : Type} [Decode α] : (n : Nat) → Reader (Vector α n)
  | 0 => return #v[]
  | n + 1 => do
    let v ← readVector n
    let a ← Decode.read
    return v.push a

instance {α : Type} {n : Nat} [Decode α] : Decode (Vector α n) where
  read := readVector n

/-! ## Words in a row -/

/-- Puts the words at the front of a byte string behind `words`. -/
def wordsOnto (words : Array Int64) : Bytes → Array Int64
  | b0 :: b1 :: b2 :: b3 :: b4 :: b5 :: b6 :: b7 :: rest =>
    wordsOnto (words.push (scalarOf [b0, b1, b2, b3, b4, b5, b6, b7])) rest
  | _ => words

/-- The 64-bit words of a byte string. A rest of less than eight bytes is left out. -/
def wordsOf (bs : Bytes) : Array Int64 := wordsOnto #[] bs

def bytesOfWords (words : List Int64) : Bytes := words.flatMap scalarBytes

end Wire

end Pledge
