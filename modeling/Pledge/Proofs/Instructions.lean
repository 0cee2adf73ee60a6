-- One instruction and its bytes. What is written for an instruction, what is read
-- for it and how long it is all follow the same tables, so it is decoded exactly
-- where its bytes stand. Where none stands, the first thing that is wrong is named.
import Pledge.Proofs.Decoding

namespace Pledge

/-! ## The tables -/

theorem Opcode.ofByte?_eq_none {b : UInt8} : ofByte? b = none ↔ ∀ op : Opcode, op.byte ≠ b := by
  constructor
  · intro h op hop
    rw [← hop, ofByte?_byte] at h
    cases h
  · intro h
    cases hop : ofByte? b with
    | none => rfl
    | some op => exact absurd (byte_of_ofByte? hop) (h op)

theorem Function.ofCode?_eq_none {n : UInt16} : ofCode? n = none ↔ ∀ f : Function, f.code ≠ n := by
  constructor
  · intro h f hf
    rw [← hf, ofCode?_code] at h
    cases h
  · intro h
    cases hf : ofCode? n with
    | none => rfl
    | some f => exact absurd (code_of_ofCode? hf) (h f)

namespace Opcode

variable {op : Opcode}

/-- A function stands in front of the other operands, and there is one at most. -/
theorem function_first (op : Opcode) :
    .function ∉ op.operands ∨ ∃ kinds, op.operands = .function :: kinds ∧ .function ∉ kinds := by
  cases op
  all_goals first
    | exact .inl (by decide)
    | exact .inr ⟨_, rfl, by decide⟩

theorem exists_of_function (h : .function ∈ op.operands) :
    ∃ kinds, op.operands = .function :: kinds ∧ .function ∉ kinds := by
  obtain hnone | hfirst := op.function_first
  · exact absurd h hnone
  · exact hfirst

end Opcode

namespace Instr

open OperandKind

/-! ## Operands with enough bytes -/

theorem exists_readScalar {α : Type} [Wire.Scalar α] (offset : Nat) {input : Bytes}
    (h : Wire.Scalar.width α ≤ input.length) :
    ∃ a : α, readScalar offset input = .ok (a, input.drop (Wire.Scalar.width α)) := by
  refine ⟨Wire.scalarOf (input.take (Wire.Scalar.width α)), readScalar_eq_ok.mpr ?_⟩
  rw [Wire.scalarBytes_scalarOf (List.length_take_of_le h), List.take_append_drop]

theorem exists_readScalar_bind {α : Type} [Wire.Scalar α] (offset : Nat) {input : Bytes}
    (f : α → Operand) (h : Wire.Scalar.width α ≤ input.length) :
    ∃ o, (readScalar offset input >>= fun read =>
      (.ok (f read.1, read.2) : Except ProgramError (Operand × Bytes))) =
        .ok (o, input.drop (Wire.Scalar.width α)) := by
  obtain ⟨a, ha⟩ := exists_readScalar (α := α) offset h
  exact ⟨f a, Except.bind_eq_ok.mpr ⟨_, ha, rfl⟩⟩

theorem exists_readOperand (offset : Nat) {kind : OperandKind} {input : Bytes}
    (hkind : .function ≠ kind) (h : kind.width ≤ input.length) :
    ∃ o, readOperand offset kind input = .ok (o, input.drop kind.width) := by
  cases kind with
  | slot => exact exists_readScalar_bind (α := UInt32) offset .slot h
  | value => exact exists_readScalar_bind (α := Word) offset .value h
  | offset => exact exists_readScalar_bind (α := Int8) offset .offset h
  | address => exact exists_readScalar_bind (α := UInt32) offset .address h
  | function => exact absurd rfl hkind

/-- Operands other than functions are never refused where there are enough bytes. -/
theorem exists_readOperands (offset : Nat) {kinds : List OperandKind} {input : Bytes}
    (hkinds : .function ∉ kinds) (h : totalWidth kinds ≤ input.length) :
    ∃ os, readOperands offset kinds input = .ok os := by
  induction kinds generalizing input with
  | nil => exact ⟨[], rfl⟩
  | cons kind kinds ih =>
    rw [List.mem_cons, not_or] at hkinds
    rw [totalWidth_cons] at h
    have hwidth : kind.width ≤ input.length := by omega
    have hrest : totalWidth kinds ≤ (input.drop kind.width).length := by
      rw [List.length_drop]
      omega
    obtain ⟨o, ho⟩ := exists_readOperand offset hkinds.1 hwidth
    obtain ⟨os, hos⟩ := ih hkinds.2 hrest
    exact ⟨o :: os, Except.bind_eq_ok.mpr ⟨_, ho, Except.bind_eq_ok.mpr ⟨os, hos, rfl⟩⟩⟩

theorem readOperands_of_no_function (offset : Nat) {op : Opcode} {n : UInt16} {window : Bytes}
    (hop : .function ∈ op.operands) (hn : Wire.toBytes n <+: window)
    (hno : ∀ f : Function, f.code ≠ n) :
    readOperands offset op.operands window = .error (.invalidFunction n offset) := by
  obtain ⟨kinds, hkinds, _⟩ := Opcode.exists_of_function hop
  obtain ⟨rest, rfl⟩ := hn
  have hread : readOperand offset .function (Wire.toBytes n ++ rest) =
      .error (.invalidFunction n offset) := by
    refine Except.bind_eq_error.mpr (.inr ⟨(n, rest), ?_, ?_⟩)
    · rw [readScalar_eq_ok, Wire.toBytes_scalar]
    · simp only [Function.ofCode?_eq_none.mpr hno]
      rfl
  rw [hkinds]
  exact Except.bind_eq_error.mpr (.inl hread)

/-- Once there are enough bytes for the operands of an opcode, all that can be wrong with them is a
function that is not in the table. -/
theorem exists_readOperands_or (offset : Nat) {op : Opcode} {window : Bytes}
    (h : totalWidth op.operands ≤ window.length) :
    (∃ os, readOperands offset op.operands window = .ok os) ∨
      ∃ n : UInt16, .function ∈ op.operands ∧ Wire.toBytes n <+: window ∧
        ∀ f : Function, f.code ≠ n := by
  obtain hnone | ⟨kinds, hkinds, hnone⟩ := op.function_first
  · exact .inl (exists_readOperands offset hnone h)
  · rw [hkinds, totalWidth_cons] at h
    have hwidth : Wire.Scalar.width UInt16 ≤ window.length := Nat.le_of_add_right_le h
    obtain ⟨n, hn⟩ := exists_readScalar (α := UInt16) offset hwidth
    have hwindow := readScalar_eq_ok.mp hn
    by_cases hf : ∃ f : Function, f.code = n
    · obtain ⟨f, rfl⟩ := hf
      have hread : readOperand offset .function window = .ok (.function f, window.drop 2) :=
        readOperand_eq_ok.mpr ⟨rfl, hwindow⟩
      have hrest : totalWidth kinds ≤ (window.drop 2).length := by
        rw [List.length_drop]
        exact Nat.le_sub_of_add_le' h
      obtain ⟨os, hos⟩ := exists_readOperands offset hnone hrest
      rw [hkinds]
      exact .inl ⟨_, Except.bind_eq_ok.mpr ⟨_, hread, Except.bind_eq_ok.mpr ⟨os, hos, rfl⟩⟩⟩
    · refine .inr ⟨n, by simp [hkinds], ?_, not_exists.mp hf⟩
      rw [Wire.toBytes_scalar]
      exact ⟨_, hwindow.symm⟩

/-! ## Where no instruction stands -/

/-- Why no instruction is found at an offset. What is looked at first is named first: whether there
is a byte, whether it is that of an opcode, whether the instruction fits, and whether there is such
a function. -/
inductive Refused (code : Bytes) (offset : Nat) : ProgramError → Prop where
  | noByte (hend : code.length ≤ offset) : Refused code offset (.endOfCode offset)
  | noOpcode {b : UInt8} (hb : code[offset]? = some b) (hno : ∀ op : Opcode, op.byte ≠ b) :
    Refused code offset (.invalidOpcode b offset)
  | noRoom {op : Opcode} (hb : code[offset]? = some op.byte)
    (hend : code.length < offset + op.size) :
    Refused code offset (.endOfCode offset)
  | noFunction {op : Opcode} {n : UInt16} (hb : code[offset]? = some op.byte)
    (hfits : offset + op.size ≤ code.length) (hop : .function ∈ op.operands)
    (hn : Wire.toBytes n <+: code.drop (offset + 1)) (hno : ∀ f : Function, f.code ≠ n) :
    Refused code offset (.invalidFunction n offset)

section

variable {code : Bytes} {offset : Nat} {e : ProgramError}

theorem drop_eq_cons {b : UInt8} (h : code[offset]? = some b) :
    code.drop offset = b :: code.drop (offset + 1) := by
  obtain ⟨hlt, rfl⟩ := List.getElem?_eq_some_iff.mp h
  exact List.drop_eq_getElem_cons hlt

/-- At the byte of an opcode, the operands are read once there is room for all of them. -/
theorem rawAt_of_opcode {op : Opcode} (h : code[offset]? = some op.byte) :
    rawAt code offset =
      if code.length < offset + op.size then .error (.endOfCode offset)
      else RawInstr.mk offset op <$>
        readOperands offset op.operands ((code.drop (offset + 1)).take (op.size - 1)) := by
  have hlt := (List.getElem?_eq_some_iff.mp h).1
  have hsize := op.size_eq
  have hroom : ((code.drop (offset + 1)).take (op.size - 1)).length < op.size - 1 ↔
      code.length < offset + op.size := by
    rw [List.length_take, List.length_drop]
    omega
  unfold rawAt
  rw [drop_eq_cons h]
  simp only [decodeFront, Opcode.ofByte?_byte, hroom]
  rfl

theorem rawAt_of_refused (h : Refused code offset e) : rawAt code offset = .error e := by
  cases h with
  | noByte hend =>
    unfold rawAt
    rw [List.drop_eq_nil_of_le hend]
    rfl
  | noOpcode hb hno =>
    unfold rawAt
    rw [drop_eq_cons hb]
    simp only [decodeFront, Opcode.ofByte?_eq_none.mpr hno]
    rfl
  | noRoom hb hend => rw [rawAt_of_opcode hb, if_pos hend]
  | @noFunction op n hb hfits hop hn hno =>
    obtain ⟨kinds, hkinds, _⟩ := Opcode.exists_of_function hop
    have hsize := op.size_eq
    rw [hkinds, totalWidth_cons, show OperandKind.function.width = 2 from rfl] at hsize
    have hlength : (Wire.toBytes n).length = 2 := by
      rw [Wire.toBytes_scalar]
      exact Wire.length_scalarBytes n
    rw [rawAt_of_opcode hb, if_neg (by omega), Except.map_eq_error]
    exact readOperands_of_no_function offset hop (List.prefix_take_iff.mpr ⟨hn, by omega⟩) hno

/-- Where nothing is wrong there is an instruction. -/
theorem exists_rawAt_or (code : Bytes) (offset : Nat) :
    (∃ r, rawAt code offset = .ok r) ∨ ∃ e, Refused code offset e := by
  cases hb : code[offset]? with
  | none => exact .inr ⟨_, .noByte (List.getElem?_eq_none_iff.mp hb)⟩
  | some b =>
    cases hop : Opcode.ofByte? b with
    | none => exact .inr ⟨_, .noOpcode hb (Opcode.ofByte?_eq_none.mp hop)⟩
    | some op =>
      obtain rfl := Opcode.byte_of_ofByte? hop
      by_cases hend : code.length < offset + op.size
      · exact .inr ⟨_, .noRoom hb hend⟩
      · have hwindow : totalWidth op.operands ≤
            ((code.drop (offset + 1)).take (op.size - 1)).length := by
          have hsize := op.size_eq
          rw [List.length_take, List.length_drop]
          omega
        rw [rawAt_of_opcode hb, if_neg hend]
        obtain ⟨os, hos⟩ | ⟨n, hfunction, hn, hno⟩ := exists_readOperands_or offset hwindow
        · exact .inl ⟨_, Except.map_eq_ok.mpr ⟨os, hos, rfl⟩⟩
        · exact .inr ⟨_, .noFunction hb (by omega) hfunction (hn.trans (List.take_prefix _ _)) hno⟩

theorem rawAt_eq_error : rawAt code offset = .error e ↔ Refused code offset e := by
  refine ⟨?_, rawAt_of_refused⟩
  intro h
  obtain ⟨r, hr⟩ | ⟨e', he'⟩ := exists_rawAt_or code offset
  · rw [hr] at h
    cases h
  · rw [rawAt_of_refused he'] at h
    cases h
    exact he'

/-! ## The typed instruction -/

theorem decodeAt_eq_ok {i : Instr} :
    decodeAt code offset = .ok i ↔ Wire.toBytes i <+: code.drop offset := by
  refine Except.bind_eq_ok.trans ⟨?_, ?_⟩
  · rintro ⟨r, hraw, htyped⟩
    obtain ⟨j, rfl, hj⟩ := decodeFront_eq_ok.mp hraw
    rw [typed_raw] at htyped
    cases htyped
    exact hj
  · intro h
    exact ⟨_, decodeFront_eq_ok.mpr ⟨i, rfl, h⟩, typed_raw i offset⟩

/-- What is found in code has the operands that its opcode asks for, so typing it adds no failure.
-/
theorem decodeAt_eq_error : decodeAt code offset = .error e ↔ Refused code offset e := by
  rw [← rawAt_eq_error]
  refine Except.bind_eq_error.trans ⟨?_, .inl⟩
  rintro (h | ⟨r, hraw, htyped⟩)
  · exact h
  · obtain ⟨i, rfl, _⟩ := decodeFront_eq_ok.mp hraw
    rw [typed_raw] at htyped
    cases htyped

end

theorem prefix_drop_iff_take {code : Bytes} {offset : Nat} {i : Instr} :
    Wire.toBytes i <+: code.drop offset ↔
      (code.drop offset).take i.opcode.size = Wire.toBytes i := by
  rw [List.prefix_iff_eq_take, length_toBytes, eq_comm]
  rfl

/-! ## The law of one instruction -/

/-- An instruction is decoded where its bytes stand, whatever stands around them, and it takes one
byte and as many as its operands are wide. What is decoded at an offset are the bytes that stand
there. Where nothing is decoded, the first thing that is wrong is named, with the offset, and it is
never that the operands do not belong to the opcode. -/
theorem an_instruction_is_decoded_where_its_bytes_stand :
    (∀ (before : Bytes) (i : Instr) (after : Bytes),
      decodeAt (before ++ Wire.toBytes i ++ after) before.length = .ok i) ∧
    (∀ i : Instr, (Wire.toBytes i).length = Wire.encodedSize i ∧
      Wire.encodedSize i = i.opcode.size ∧
      i.opcode.size = 1 + (i.operands.map fun o => o.kind.width).sum) ∧
    (∀ code offset i, decodeAt code offset = .ok i ↔
      (code.drop offset).take i.opcode.size = Wire.toBytes i) ∧
    (∀ code offset e, decodeAt code offset = .error e ↔ Refused code offset e) ∧
    ∀ code offset position,
      decodeAt code offset ≠ .error (.malformed (.operandMismatch position)) := by
  refine ⟨?_, ?_, ?_, fun _ _ _ => decodeAt_eq_error, ?_⟩
  · intro before i after
    rw [List.append_assoc]
    exact decodeAt_append before i after
  · intro i
    have hsize : Wire.encodedSize i = i.opcode.size := by
      rw [Wire.encodedSize_eq, length_toBytes]
      rfl
    refine ⟨(Wire.encodedSize_eq i).symm, hsize, ?_⟩
    rw [Opcode.size_eq, totalWidth, ← i.kind_operands, List.map_map]
    rfl
  · intro code offset i
    rw [decodeAt_eq_ok, prefix_drop_iff_take]
  · intro code offset position h
    rw [decodeAt_eq_error] at h
    cases h

end Instr

end Pledge
