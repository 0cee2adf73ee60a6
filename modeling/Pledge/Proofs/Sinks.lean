-- Writing to sinks. What is written to a buffer, counted and hashed are the
-- same bytes, though values are written in pieces and no sink sees where one
-- piece ends and the next begins. So a size and a digest can be had without
-- the bytes.
import Pledge.Proofs.Decoding
import Pledge.Proofs.Streams

namespace Pledge.Wire

instance : LawfulSink Hasher where
  write_nil _ := rfl
  write_append := Hasher.update_append

/-! ## Values in a row -/

/-- Something to write: a value of any type that has a wire form. -/
structure Writable where
  {type : Type}
  [encode : Encode type]
  value : type

attribute [instance] Writable.encode

/-- The wire form of what is to be written. -/
def Writable.bytes (w : Writable) : Bytes := toBytes w.value

/-- Writes values to a sink, one after the other. -/
def writeAll {σ : Type} [Sink σ] (sink : σ) (ws : List Writable) : σ :=
  ws.foldl (fun sink w => encodeInto sink w.value) sink

/-- A sink sees the wire forms in a row. By induction on the values, with the sink as it is after
those in front. -/
theorem writeAll_eq {σ : Type} [Sink σ] [LawfulSink σ] (sink : σ) (ws : List Writable) :
    writeAll sink ws = Sink.write sink (ws.flatMap Writable.bytes) := by
  unfold writeAll
  induction ws generalizing sink with
  | nil => exact (LawfulSink.write_nil sink).symm
  | cons w ws ih =>
    rw [List.foldl_cons, ih, encodeInto_eq, List.flatMap_cons, LawfulSink.write_append]
    rfl

/-! ## The law of sinks -/

/-- A buffer gets the wire forms in a row behind what it holds, whatever that is; a count grows by
their length, so the size of a value is the length of its wire form; and the digest of a hasher is
that of all the bytes. The wire form of an integer is its bytes, the most significant first; that of
a vector is those of its elements in a row, that of a header those of its fields, that of an
instruction the byte of its opcode and its operands, and that of a container its header and its
segments, each behind its length. -/
theorem all_sinks_see_the_same_bytes :
    (∀ (ws : List Writable) (buffer : Array UInt8),
      (writeAll buffer ws).toList = buffer.toList ++ ws.flatMap Writable.bytes) ∧
    (∀ (ws : List Writable) (count : ByteCount),
      (writeAll count ws).total = count.total + (ws.flatMap Writable.bytes).length) ∧
    (∀ w : Writable, encodedSize w.value = w.bytes.length) ∧
    (∀ (ws : List Writable) (bs : Bytes), (writeAll (({} : Hasher).update bs) ws).finish =
      Digest.ofBytes (bs ++ ws.flatMap Writable.bytes)) ∧
    (∀ {α : Type} [Scalar α] (a : α),
      toBytes a = bigEndian (Scalar.width α) (Scalar.toNat a)) ∧
    (∀ {α : Type} [Encode α] {n : Nat} (v : Vector α n), toBytes v = v.toList.flatMap toBytes) ∧
    (∀ h : Header, toBytes h = toBytes h.version ++ toBytes h.reserved ++ toBytes h.codePages ++
      toBytes h.dataPages ++ toBytes h.callStackPages ++ toBytes h.userStackPages ++
      toBytes h.minActivation) ∧
    (∀ i : Instr, toBytes i = i.opcode.byte :: i.operands.flatMap Operand.bytes) ∧
    ∀ c : Container, toBytes c =
      toBytes c.header ++ (Container.segmentBytes c.code ++ Container.segmentBytes c.data) := by
  refine ⟨?_, ?_, ?_, ?_, toBytes_scalar, toBytes_vector, Header.toBytes_eq, Instr.toBytes_eq,
    Container.toBytes_eq⟩
  · intro ws buffer
    rw [writeAll_eq, toList_write]
  · intro ws count
    rw [writeAll_eq]
    rfl
  · intro w
    exact encodedSize_eq w.value
  · intro ws bs
    rw [writeAll_eq]
    show ((({} : Hasher).update bs).update _).finish = _
    rw [← Hasher.update_append]
    rfl

end Pledge.Wire
