-- SHA-256. A hasher takes bytes one at a time and compresses each full block,
-- so it does not matter how its input is cut into pieces.
import Pledge.Wire

namespace Pledge

/-- A SHA-256 digest, and the chaining value on the way to one: eight 32-bit words. -/
structure Digest where
  a : UInt32
  b : UInt32
  c : UInt32
  d : UInt32
  e : UInt32
  f : UInt32
  g : UInt32
  h : UInt32
  deriving DecidableEq, Repr

namespace Digest

def words (x : Digest) : List UInt32 := [x.a, x.b, x.c, x.d, x.e, x.f, x.g, x.h]

def bytes (x : Digest) : Bytes := x.words.flatMap Wire.scalarBytes

def isZero (x : Digest) : Bool := x.words.all (· == 0)

@[simp] theorem length_bytes (x : Digest) : x.bytes.length = 32 := by
  simp [bytes, words, Wire.scalarBytes, Wire.Scalar.width]

/-! ## The compression function -/

/-- The chaining value before any block: the fractional parts of the square roots of the first
eight primes. -/
def initial : Digest :=
  ⟨0x6a09e667, 0xbb67ae85, 0x3c6ef372, 0xa54ff53a, 0x510e527f, 0x9b05688c, 0x1f83d9ab, 0x5be0cd19⟩

/-- One constant a round: the fractional parts of the cube roots of the first sixty-four primes. -/
def roundConstants : List UInt32 := [
  0x428a2f98, 0x71374491, 0xb5c0fbcf, 0xe9b5dba5, 0x3956c25b, 0x59f111f1, 0x923f82a4, 0xab1c5ed5,
  0xd807aa98, 0x12835b01, 0x243185be, 0x550c7dc3, 0x72be5d74, 0x80deb1fe, 0x9bdc06a7, 0xc19bf174,
  0xe49b69c1, 0xefbe4786, 0x0fc19dc6, 0x240ca1cc, 0x2de92c6f, 0x4a7484aa, 0x5cb0a9dc, 0x76f988da,
  0x983e5152, 0xa831c66d, 0xb00327c8, 0xbf597fc7, 0xc6e00bf3, 0xd5a79147, 0x06ca6351, 0x14292967,
  0x27b70a85, 0x2e1b2138, 0x4d2c6dfc, 0x53380d13, 0x650a7354, 0x766a0abb, 0x81c2c92e, 0x92722c85,
  0xa2bfe8a1, 0xa81a664b, 0xc24b8b70, 0xc76c51a3, 0xd192e819, 0xd6990624, 0xf40e3585, 0x106aa070,
  0x19a4c116, 0x1e376c08, 0x2748774c, 0x34b0bcb5, 0x391c0cb3, 0x4ed8aa4a, 0x5b9cca4f, 0x682e6ff3,
  0x748f82ee, 0x78a5636f, 0x84c87814, 0x8cc70208, 0x90befffa, 0xa4506ceb, 0xbef9a3f7, 0xc67178f2]

/-- The word turned right by `n` bits, for `n` between 1 and 31. -/
def rotateRight (x n : UInt32) : UInt32 := (x >>> n) ||| (x <<< (32 - n))

def blockWord (block : Array UInt8) (i : Nat) : UInt32 :=
  Wire.scalarOf [block.getD (4 * i) 0, block.getD (4 * i + 1) 0, block.getD (4 * i + 2) 0,
    block.getD (4 * i + 3) 0]

/-- Appends the next word of the message schedule, made from four of the last sixteen. -/
def extendSchedule (w : Array UInt32) : Array UInt32 :=
  let i := w.size
  let x := w.getD (i - 15) 0
  let y := w.getD (i - 2) 0
  let s0 := rotateRight x 7 ^^^ rotateRight x 18 ^^^ (x >>> 3)
  let s1 := rotateRight y 17 ^^^ rotateRight y 19 ^^^ (y >>> 10)
  w.push (w.getD (i - 16) 0 + s0 + w.getD (i - 7) 0 + s1)

/-- The sixty-four words of the message schedule: the sixteen of the block, then the rest. -/
def schedule (block : Array UInt8) : Array UInt32 :=
  Nat.repeat extendSchedule 48 ((Array.range 16).map (blockWord block))

/-- One round, with its constant and its word of the schedule. -/
def round (x : Digest) (k w : UInt32) : Digest :=
  let s1 := rotateRight x.e 6 ^^^ rotateRight x.e 11 ^^^ rotateRight x.e 25
  let choice := (x.e &&& x.f) ^^^ ((~~~ x.e) &&& x.g)
  let t1 := x.h + s1 + choice + k + w
  let s0 := rotateRight x.a 2 ^^^ rotateRight x.a 13 ^^^ rotateRight x.a 22
  let majority := (x.a &&& x.b) ^^^ (x.a &&& x.c) ^^^ (x.b &&& x.c)
  ⟨t1 + (s0 + majority), x.a, x.b, x.c, x.d + t1, x.e, x.f, x.g⟩

/-- The word-by-word sum of two chaining values. -/
def add (x y : Digest) : Digest :=
  ⟨x.a + y.a, x.b + y.b, x.c + y.c, x.d + y.d, x.e + y.e, x.f + y.f, x.g + y.g, x.h + y.h⟩

/-- The chaining value after a block of sixty-four bytes. -/
def compress (x : Digest) (block : Array UInt8) : Digest :=
  x.add ((roundConstants.zip (schedule block).toList).foldl (fun s (k, w) => s.round k w) x)

end Digest

/-! ## Hashing in pieces -/

/-- A digest in the making: the chaining value of the full blocks, the bytes of the block begun,
and the number of bytes taken so far. -/
structure Hasher where
  chain : Digest := Digest.initial
  block : Array UInt8 := #[]
  taken : Nat := 0
  deriving DecidableEq, Repr

namespace Hasher

def push (h : Hasher) (b : UInt8) : Hasher :=
  let block := h.block.push b
  if block.size = 64 then ⟨h.chain.compress block, #[], h.taken + 1⟩
  else ⟨h.chain, block, h.taken + 1⟩

def update (h : Hasher) (bs : Bytes) : Hasher := bs.foldl push h

/-- What follows a message of `size` bytes: a one bit, zeros up to the last eight bytes of a
block, and the number of bits. -/
def padding (size : Nat) : Bytes :=
  0x80 :: (List.replicate ((119 - size % 64) % 64) 0 ++ Wire.bigEndian 8 (size * 8))

/-- It does not matter where the input is cut. -/
theorem update_append (h : Hasher) (bs cs : Bytes) :
    h.update (bs ++ cs) = (h.update bs).update cs := by
  simp [update]

/-- The digest of all that was taken. -/
def finish (h : Hasher) : Digest := (h.update (padding h.taken)).chain

end Hasher

instance : Wire.Sink Hasher where
  write := Hasher.update

namespace Digest

def ofBytes (bs : Bytes) : Digest := (({} : Hasher).update bs).finish

/-- The digest of the digest, as address checksums use it. -/
def double (bs : Bytes) : Digest := ofBytes (ofBytes bs).bytes

end Digest

end Pledge
