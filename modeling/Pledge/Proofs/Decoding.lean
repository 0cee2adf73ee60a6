-- Code and instructions: an instruction is found again from its bytes,
-- whatever stands behind them, and code that can be decoded is nothing but
-- instructions in a row.
import Pledge.Instruction.Decode
import Pledge.Proofs.Encoding

namespace Pledge

theorem eq_of_positionAfter? {position target : Nat} {distance : Int}
    (h : positionAfter? position distance = some target) :
    (target : Int) = position + distance := by
  simp only [positionAfter?] at h
  split at h
  · cases h
    omega
  · cases h

/-! ## Operands -/

namespace OperandWith

variable {O A : Type} {o : OperandWith O A}

theorem kind_eq_slot : o.kind = .slot ↔ ∃ n, o = .slot n := by cases o <;> simp [kind]

theorem kind_eq_value : o.kind = .value ↔ ∃ v, o = .value v := by cases o <;> simp [kind]

theorem kind_eq_function : o.kind = .function ↔ ∃ f, o = .function f := by cases o <;> simp [kind]

theorem kind_eq_offset : o.kind = .offset ↔ ∃ d, o = .offset d := by cases o <;> simp [kind]

theorem kind_eq_address : o.kind = .address ↔ ∃ a, o = .address a := by cases o <;> simp [kind]

end OperandWith

/-- The width of operands in a row. -/
def OperandKind.totalWidth (kinds : List OperandKind) : Nat := (kinds.map width).sum

theorem OperandKind.totalWidth_cons (kind : OperandKind) (kinds : List OperandKind) :
    totalWidth (kind :: kinds) = kind.width + totalWidth kinds := List.sum_cons

theorem OperandKind.foldl_width (kinds : List OperandKind) (n : Nat) :
    kinds.foldl (fun size kind => size + kind.width) n = n + totalWidth kinds := by
  induction kinds generalizing n with
  | nil => rfl
  | cons kind kinds ih => rw [List.foldl_cons, ih, totalWidth_cons, Nat.add_assoc]

theorem Opcode.size_eq (op : Opcode) : op.size = 1 + OperandKind.totalWidth op.operands :=
  OperandKind.foldl_width _ _

open OperandWith in
/-- Operands of the kinds that an opcode asks for make an instruction. -/
theorem InstrWith.exists_of_kinds {O A : Type} {op : Opcode} {os : List (OperandWith O A)}
    (h : os.map kind = op.operands) :
    ∃ i : InstrWith O A, i.opcode = op ∧ i.operands = os ∧ ofOperands? op os = some i := by
  cases op
  all_goals
    simp only [Opcode.operands, Opcode.entry, List.map_eq_cons_iff, List.map_eq_nil_iff,
      kind_eq_slot, kind_eq_value, kind_eq_function, kind_eq_offset, kind_eq_address] at h
    -- One operand after the other, and the empty rest at last.
    repeat obtain ⟨_, _, rfl, ⟨_, rfl⟩, h⟩ := h
    exact ⟨_, rfl, rfl, rfl⟩

namespace Instr

theorem readScalar_eq_ok {α : Type} [Wire.Scalar α] {offset : Nat} {input rest : Bytes} {a : α} :
    readScalar offset input = .ok (a, rest) ↔ input = Wire.scalarBytes a ++ rest := by
  rw [← Wire.toBytes_scalar, ← Wire.Faithful.read_eq_ok]
  unfold readScalar
  cases (Wire.Decode.read : Wire.Reader α) input with
  | ok b mid => simp
  | error e mid => simp

/-- Reading an integer that stands for an operand. -/
theorem readScalar_bind_eq_ok {α : Type} [Wire.Scalar α] {offset : Nat} {input rest : Bytes}
    {f : α → Operand} {o : Operand} (hf : ∀ a, (f a).bytes = Wire.scalarBytes a) :
    (readScalar offset input >>= fun read =>
        (.ok (f read.1, read.2) : Except ProgramError (Operand × Bytes))) = .ok (o, rest) ↔
      (∃ a, o = f a) ∧ input = o.bytes ++ rest := by
  rw [Except.bind_eq_ok]
  constructor
  · rintro ⟨⟨a, mid⟩, hread, h⟩
    cases h
    rw [hf]
    exact ⟨⟨a, rfl⟩, readScalar_eq_ok.mp hread⟩
  · rintro ⟨⟨a, rfl⟩, hinput⟩
    rw [hf] at hinput
    exact ⟨(a, rest), readScalar_eq_ok.mpr hinput, rfl⟩

/-- An operand is read where its bytes stand. -/
theorem readOperand_eq_ok {offset : Nat} {kind : OperandKind} {input rest : Bytes} {o : Operand} :
    readOperand offset kind input = .ok (o, rest) ↔ o.kind = kind ∧ input = o.bytes ++ rest := by
  cases kind with
  | slot =>
    rw [OperandWith.kind_eq_slot]
    exact readScalar_bind_eq_ok fun _ => rfl
  | value =>
    rw [OperandWith.kind_eq_value]
    exact readScalar_bind_eq_ok fun _ => rfl
  | offset =>
    rw [OperandWith.kind_eq_offset]
    exact readScalar_bind_eq_ok fun _ => rfl
  | address =>
    rw [OperandWith.kind_eq_address]
    exact readScalar_bind_eq_ok fun _ => rfl
  | function =>
    rw [OperandWith.kind_eq_function]
    refine Except.bind_eq_ok.trans ⟨?_, ?_⟩
    · rintro ⟨⟨code, mid⟩, hread, h⟩
      cases hf : Function.ofCode? code with
      | none =>
        simp only [hf] at h
        cases h
      | some f =>
        simp only [hf] at h
        cases h
        rw [readScalar_eq_ok, ← Function.code_of_ofCode? hf] at hread
        exact ⟨⟨f, rfl⟩, hread⟩
    · rintro ⟨⟨f, rfl⟩, hinput⟩
      refine ⟨(f.code, rest), readScalar_eq_ok.mpr hinput, ?_⟩
      simp only [Function.ofCode?_code]
      rfl

/-- Operands are read where their bytes stand in a row. What is left is not looked at. -/
theorem readOperands_eq_ok {offset : Nat} {kinds : List OperandKind} {input : Bytes}
    {os : List Operand} :
    readOperands offset kinds input = .ok os ↔
      os.map OperandWith.kind = kinds ∧ os.flatMap Operand.bytes <+: input := by
  induction kinds generalizing input os with
  | nil =>
    show Except.ok [] = Except.ok os ↔ _
    rw [List.map_eq_nil_iff]
    constructor
    · intro h
      cases h
      exact ⟨rfl, List.nil_prefix⟩
    · rintro ⟨rfl, _⟩
      rfl
  | cons kind kinds ih =>
    refine Except.bind_eq_ok.trans ⟨?_, ?_⟩
    · rintro ⟨⟨o, mid⟩, hread, h⟩
      obtain ⟨os', hreads, hos⟩ := Except.bind_eq_ok.mp h
      cases hos
      obtain ⟨rfl, rfl⟩ := readOperand_eq_ok.mp hread
      obtain ⟨rfl, hmid⟩ := ih.mp hreads
      refine ⟨rfl, ?_⟩
      rw [List.flatMap_cons]
      exact (List.prefix_append_right_inj _).mpr hmid
    · rintro ⟨hkinds, hinput⟩
      obtain ⟨o, os', rfl, hkind, hkinds⟩ := List.map_eq_cons_iff.mp hkinds
      rw [List.flatMap_cons] at hinput
      obtain ⟨rest, rfl⟩ := hinput
      rw [List.append_assoc]
      refine ⟨(o, os'.flatMap Operand.bytes ++ rest), readOperand_eq_ok.mpr ⟨hkind, rfl⟩, ?_⟩
      exact Except.bind_eq_ok.mpr ⟨os', ih.mpr ⟨hkinds, List.prefix_append _ _⟩, rfl⟩

/-! ## One instruction -/

theorem toBytes_eq (i : Instr) :
    Wire.toBytes i = i.opcode.byte :: i.operands.flatMap Operand.bytes := by
  rw [Wire.toBytes_eq_flatten, List.flatMap_def]
  rfl

theorem totalWidth_kind (os : List Operand) :
    OperandKind.totalWidth (os.map OperandWith.kind) = (os.flatMap Operand.bytes).length := by
  induction os with
  | nil => rfl
  | cons o os ih =>
    rw [List.map_cons, OperandKind.totalWidth_cons, ih, List.flatMap_cons, List.length_append,
      o.length_bytes]

/-- The opcode tells how many bytes an instruction takes. -/
theorem length_toBytes (i : Instr) : (Wire.toBytes i).length = i.size := by
  rw [InstrWith.size, Opcode.size_eq, ← i.kind_operands, totalWidth_kind, toBytes_eq,
    List.length_cons]
  omega

/-- An instruction as it is found at an offset. -/
def raw (i : Instr) (offset : Nat) : RawInstr := ⟨offset, i.opcode, i.operands⟩

theorem typed_raw (i : Instr) (offset : Nat) : (i.raw offset).typed = .ok i := by
  have h := i.ofOperands?_operands []
  rw [List.append_nil] at h
  unfold RawInstr.typed raw
  rw [h]

/-- Decoding finds an instruction at the front exactly where its bytes stand there. -/
theorem decodeFront_eq_ok {offset : Nat} {input : Bytes} {r : RawInstr} :
    decodeFront offset input = .ok r ↔
      ∃ i : Instr, r = i.raw offset ∧ Wire.toBytes i <+: input := by
  constructor
  · intro h
    cases input with
    | nil => cases h
    | cons b rest =>
      cases hop : Opcode.ofByte? b with
      | none =>
        simp only [decodeFront, hop] at h
        cases h
      | some op =>
        simp only [decodeFront, hop] at h
        obtain ⟨hlen, h⟩ := Except.check_eq_ok.mp h
        obtain ⟨os, hread, h⟩ := Except.bind_eq_ok.mp h
        cases h
        obtain ⟨hkinds, hwindow⟩ := readOperands_eq_ok.mp hread
        obtain ⟨i, rfl, rfl, _⟩ := InstrWith.exists_of_kinds hkinds
        refine ⟨i, rfl, ?_⟩
        rw [toBytes_eq, Opcode.byte_of_ofByte? hop, List.prefix_cons_inj]
        exact hwindow.trans (List.take_prefix _ _)
  · rintro ⟨i, rfl, rest, rfl⟩
    have hlen : (i.operands.flatMap Operand.bytes).length = i.opcode.size - 1 := by
      have h := length_toBytes i
      rw [toBytes_eq, List.length_cons, InstrWith.size] at h
      omega
    rw [toBytes_eq, List.cons_append]
    simp only [decodeFront, Opcode.ofByte?_byte]
    refine Except.check_eq_ok.mpr ⟨?_, Except.bind_eq_ok.mpr ⟨i.operands, ?_, rfl⟩⟩
    · rw [List.length_take, List.length_append]
      omega
    · rw [List.take_left' hlen]
      exact readOperands_eq_ok.mpr ⟨i.kind_operands, List.prefix_rfl⟩

theorem toBytes_ne_nil (i : Instr) : Wire.toBytes i ≠ [] := by
  rw [toBytes_eq]
  exact List.cons_ne_nil _ _

/-- No instruction is the beginning of another. -/
theorem eq_of_prefix {i j : Instr} {input : Bytes} (hi : Wire.toBytes i <+: input)
    (hj : Wire.toBytes j <+: input) : i = j := by
  have hri : decodeFront 0 input = .ok (i.raw 0) := decodeFront_eq_ok.mpr ⟨i, rfl, hi⟩
  have hrj : decodeFront 0 input = .ok (j.raw 0) := decodeFront_eq_ok.mpr ⟨j, rfl, hj⟩
  have hraw : i.raw 0 = j.raw 0 := by
    rw [hri] at hrj
    exact Except.ok.inj hrj
  have htyped := typed_raw i 0
  rw [hraw, typed_raw] at htyped
  exact (Except.ok.inj htyped).symm

/-- The typed instruction is found at its offset, whatever stands around it. -/
theorem decodeAt_append (before : Bytes) (i : Instr) (after : Bytes) :
    decodeAt (before ++ (Wire.toBytes i ++ after)) before.length = .ok i := by
  have hraw : rawAt (before ++ (Wire.toBytes i ++ after)) before.length =
      .ok (i.raw before.length) := by
    unfold rawAt
    rw [List.drop_left]
    exact decodeFront_eq_ok.mpr ⟨i, rfl, List.prefix_append _ _⟩
  unfold decodeAt
  rw [hraw]
  exact typed_raw i before.length

/-! ## Instructions in a row -/

/-- The bytes of instructions in a row. -/
def encodeAll (is : List Instr) : Bytes := is.flatMap Wire.toBytes

theorem encodeAll_cons (i : Instr) (is : List Instr) :
    encodeAll (i :: is) = Wire.toBytes i ++ encodeAll is := rfl

theorem encodeAll_append (is js : List Instr) :
    encodeAll (is ++ js) = encodeAll is ++ encodeAll js := List.flatMap_append

/-- Instructions in a row as they are found from an offset on. -/
def rawsFrom : Nat → List Instr → List RawInstr
  | _, [] => []
  | offset, i :: is => i.raw offset :: rawsFrom (offset + i.size) is

theorem map_typed_rawsFrom (offset : Nat) (is : List Instr) :
    (rawsFrom offset is).map RawInstr.typed = is.map .ok := by
  induction is generalizing offset with
  | nil => rfl
  | cons i is ih => rw [rawsFrom, List.map_cons, typed_raw, ih, List.map_cons]

/-- Each instruction is found behind all that stand in front of it. -/
theorem map_offset_rawsFrom (offset : Nat) (is : List Instr) :
    (rawsFrom offset is).map RawInstr.offset =
      (List.range is.length).map fun k => offset + (encodeAll (is.take k)).length := by
  induction is generalizing offset with
  | nil => rfl
  | cons i is ih =>
    rw [rawsFrom, List.map_cons, ih, List.length_cons, List.range_succ_eq_map, List.map_cons,
      List.map_map]
    refine congrArg₂ List.cons rfl (List.map_congr_left fun k _ => ?_)
    rw [Function.comp_apply, List.take_succ_cons, encodeAll_cons, List.length_append,
      length_toBytes, Nat.add_assoc]

/-- No instruction stands at the front. -/
def Stuck (input : Bytes) : Prop := ∀ i : Instr, ¬ Wire.toBytes i <+: input

/-- Code as far as it is made of instructions, and the rest. -/
structure Split (code : Bytes) (is : List Instr) (rest : Bytes) : Prop where
  eq : code = encodeAll is ++ rest
  stuck : Stuck rest

theorem exists_split (code : Bytes) : ∃ is rest, Split code is rest := by
  induction hn : code.length using Nat.strongRecOn generalizing code with
  | ind n ih =>
    by_cases hstuck : Stuck code
    · exact ⟨[], code, rfl, hstuck⟩
    · obtain ⟨i, hi⟩ := Classical.not_forall.mp hstuck
      obtain ⟨after, rfl⟩ := Classical.not_not.mp hi
      have hpos := List.length_pos_iff.mpr (toBytes_ne_nil i)
      rw [List.length_append] at hn
      obtain ⟨is, rest, hsplit⟩ := ih after.length (by omega) after rfl
      refine ⟨i :: is, rest, ?_, hsplit.stuck⟩
      rw [encodeAll_cons, List.append_assoc, ← hsplit.eq]

namespace Split

variable {code : Bytes} {is js : List Instr} {rest rest' : Bytes}

/-- There is only one way to split code. By induction on the instructions of one of the two. -/
theorem unique (h : Split code is rest) (h' : Split code js rest') : js = is ∧ rest' = rest := by
  induction is generalizing code js with
  | nil =>
    cases js with
    | nil => exact ⟨rfl, (h.eq.symm.trans h'.eq).symm⟩
    | cons j js =>
      have hj : Wire.toBytes j <+: rest := by
        have heq := h.eq.symm.trans h'.eq
        rw [encodeAll_cons, List.append_assoc] at heq
        exact ⟨_, heq.symm⟩
      exact absurd hj (h.stuck j)
  | cons i is ih =>
    have hi : Wire.toBytes i <+: code := by
      rw [h.eq, encodeAll_cons, List.append_assoc]
      exact List.prefix_append _ _
    cases js with
    | nil =>
      have hcode : code = rest' := h'.eq
      exact absurd (hcode ▸ hi) (h'.stuck i)
    | cons j js =>
      have hj : Wire.toBytes j <+: code := by
        rw [h'.eq, encodeAll_cons, List.append_assoc]
        exact List.prefix_append _ _
      obtain rfl : i = j := eq_of_prefix hi hj
      have heq := h.eq.symm.trans h'.eq
      rw [encodeAll_cons, encodeAll_cons, List.append_assoc, List.append_assoc] at heq
      have htail := List.append_cancel_left heq
      obtain ⟨rfl, rfl⟩ := ih ⟨rfl, h.stuck⟩ ⟨htail, h'.stuck⟩
      exact ⟨rfl, rfl⟩

end Split

/-! ## Decoding a segment -/

theorem decodeOnto_toBytes_append (done : Array RawInstr) (offset : Nat) (i : Instr)
    (rest : Bytes) :
    decodeOnto done offset (Wire.toBytes i ++ rest) =
      decodeOnto (done.push (i.raw offset)) (offset + i.size) rest := by
  have hfront : decodeFront offset (Wire.toBytes i ++ rest) = .ok (i.raw offset) :=
    decodeFront_eq_ok.mpr ⟨i, rfl, List.prefix_append _ _⟩
  have hlen := length_toBytes i
  rw [toBytes_eq, List.cons_append] at hfront ⊢
  rw [toBytes_eq, List.length_cons] at hlen
  have hdrop : (i.operands.flatMap Operand.bytes ++ rest).drop (i.size - 1) = rest :=
    List.drop_left' (by omega)
  rw [decodeOnto, hfront]
  show decodeOnto _ _ ((i.operands.flatMap Operand.bytes ++ rest).drop (i.size - 1)) = _
  rw [hdrop]
  rfl

/-- Instructions in a row are decoded one by one. -/
theorem decodeOnto_encodeAll_append (done : Array RawInstr) (offset : Nat) (is : List Instr)
    (rest : Bytes) :
    decodeOnto done offset (encodeAll is ++ rest) =
      decodeOnto (done ++ (rawsFrom offset is).toArray) (offset + (encodeAll is).length) rest := by
  induction is generalizing done offset with
  | nil => simp [encodeAll, rawsFrom]
  | cons i is ih =>
    rw [encodeAll_cons, List.append_assoc, decodeOnto_toBytes_append, ih, List.length_append,
      length_toBytes, rawsFrom, Nat.add_assoc]
    simp

theorem decodeAll_encodeAll (is : List Instr) : decodeAll (encodeAll is) = .ok (rawsFrom 0 is) := by
  have h := decodeOnto_encodeAll_append #[] 0 is []
  rw [List.append_nil, decodeOnto] at h
  unfold decodeAll
  rw [h]
  show Except.ok _ = _
  simp

theorem eq_rawsFrom {code : Bytes} {is : List Instr} {raws : List RawInstr}
    (hcode : code = encodeAll is) (h : decodeAll code = .ok raws) : raws = rawsFrom 0 is := by
  rw [hcode, decodeAll_encodeAll] at h
  exact (Except.ok.inj h).symm

/-- Where code is not made of instructions to its end, decoding fails at the rest. -/
theorem decodeAll_of_split {code : Bytes} {is : List Instr} {rest : Bytes}
    (h : Split code is rest) (hrest : rest ≠ []) :
    ∃ e, decodeAll code = .error e ∧ rawAt code (code.length - rest.length) = .error e := by
  obtain ⟨rfl, hstuck⟩ := h
  cases hfront : decodeFront (encodeAll is).length rest with
  | ok r =>
    obtain ⟨i, _, hi⟩ := decodeFront_eq_ok.mp hfront
    exact absurd hi (hstuck i)
  | error e =>
    refine ⟨e, ?_, ?_⟩
    · have hdecode := decodeOnto_encodeAll_append #[] 0 is rest
      cases rest with
      | nil => exact absurd rfl hrest
      | cons b rest =>
        rw [decodeOnto, Nat.zero_add, hfront] at hdecode
        unfold decodeAll
        rw [hdecode]
        rfl
    · unfold rawAt
      rw [List.length_append, Nat.add_sub_cancel, List.drop_left]
      exact hfront

/-- What decodes is a row of instructions, and decodes to them. -/
theorem exists_of_decodeAll {code : Bytes} {raws : List RawInstr} (h : decodeAll code = .ok raws) :
    ∃ is, code = encodeAll is ∧ raws = rawsFrom 0 is := by
  obtain ⟨is, rest, hsplit⟩ := exists_split code
  by_cases hrest : rest = []
  · have hcode : code = encodeAll is := by rw [hsplit.eq, hrest, List.append_nil]
    exact ⟨is, hcode, eq_rawsFrom hcode h⟩
  · obtain ⟨e, herror, _⟩ := decodeAll_of_split hsplit hrest
    rw [herror] at h
    cases h

/-- The raw instructions of a row are its instructions, each behind those in front of it. -/
theorem mem_rawsFrom {offset : Nat} {is : List Instr} {r : RawInstr} :
    r ∈ rawsFrom offset is ↔ ∃ before i after, is = before ++ i :: after ∧
      r = i.raw (offset + (encodeAll before).length) := by
  induction is generalizing offset with
  | nil => simp [rawsFrom]
  | cons j is ih =>
    rw [rawsFrom, List.mem_cons, ih]
    constructor
    · rintro (rfl | ⟨before, i, after, rfl, rfl⟩)
      · exact ⟨[], j, is, rfl, rfl⟩
      · refine ⟨j :: before, i, after, rfl, ?_⟩
        rw [encodeAll_cons, List.length_append, length_toBytes, Nat.add_assoc]
    · rintro ⟨before, i, after, hsplit, rfl⟩
      cases before with
      | nil =>
        cases hsplit
        exact .inl rfl
      | cons k before =>
        cases hsplit
        refine .inr ⟨before, i, after, rfl, ?_⟩
        rw [encodeAll_cons, List.length_append, length_toBytes, Nat.add_assoc]

/-- Each instruction stands behind those in front of it, so no two are at one place. -/
theorem pairwise_rawsFrom (offset : Nat) (is : List Instr) :
    (rawsFrom offset is).Pairwise fun r r' => r.offset < r'.offset := by
  induction is generalizing offset with
  | nil => exact .nil
  | cons i is ih =>
    refine .cons ?_ (ih _)
    intro r hr
    obtain ⟨before, j, after, _, rfl⟩ := mem_rawsFrom.mp hr
    have hpos := List.length_pos_iff.mpr (toBytes_ne_nil i)
    rw [length_toBytes] at hpos
    simp only [raw]
    omega

/-! ## Loaded code -/

/-- The part of loaded code that is looked at for an instruction. -/
theorem fetch_eq (code : Bytes) (position : Nat) :
    fetch code.toArray position =
      (decodeFront position ((code.drop position).take Opcode.maxSize)).bind RawInstr.typed := by
  unfold fetch
  rw [Array.toList_extract, List.extract_eq_take_drop, Nat.add_sub_cancel_left]
  rfl

/-- An instruction of a row is fetched at its position. -/
theorem fetch_encodeAll (before : List Instr) (i : Instr) (after : List Instr) :
    fetch (encodeAll (before ++ i :: after)).toArray (encodeAll before).length = .ok i := by
  have hdrop : (encodeAll (before ++ i :: after)).drop (encodeAll before).length =
      Wire.toBytes i ++ encodeAll after := by
    rw [encodeAll_append, List.drop_left, encodeAll_cons]
  have hfront : decodeFront (encodeAll before).length
      ((Wire.toBytes i ++ encodeAll after).take Opcode.maxSize) =
        .ok (i.raw (encodeAll before).length) := by
    refine decodeFront_eq_ok.mpr ⟨i, rfl, List.prefix_take_iff.mpr ⟨List.prefix_append _ _, ?_⟩⟩
    rw [length_toBytes]
    exact i.opcode.size_le_maxSize
  rw [fetch_eq, hdrop, hfront]
  exact typed_raw i _

/-- At the end of the code there is none. -/
theorem fetch_length (code : Bytes) :
    fetch code.toArray code.length = .error (.endOfCode code.length) := by
  rw [fetch_eq, List.drop_length]
  rfl

/-! ## The law of code -/

/-- Code is a row of instructions. Their bytes decode to them, each behind those in front of it.
What decodes was a row of instructions. What does not decode is, in one way only, a row of
instructions and a rest that begins with none, and the error is the one found at the rest. -/
theorem code_is_a_row_of_instructions :
    (∀ is : List Instr, ∃ raws, decodeAll (encodeAll is) = .ok raws ∧
      raws.map RawInstr.offset =
        (List.range is.length).map (fun k => (encodeAll (is.take k)).length) ∧
      raws.map RawInstr.typed = is.map .ok) ∧
    (∀ code raws, decodeAll code = .ok raws →
      ∃ is : List Instr, raws.map RawInstr.typed = is.map .ok ∧ encodeAll is = code) ∧
    (∀ code e, decodeAll code = .error e →
      ∃ is rest, Split code is rest ∧ rest ≠ [] ∧
        rawAt code (code.length - rest.length) = .error e ∧
        ∀ is' rest', Split code is' rest' → is' = is ∧ rest' = rest) := by
  refine ⟨?_, ?_, ?_⟩
  · intro is
    refine ⟨rawsFrom 0 is, decodeAll_encodeAll is, ?_, map_typed_rawsFrom 0 is⟩
    simpa using map_offset_rawsFrom 0 is
  · intro code raws h
    obtain ⟨is, rfl, rfl⟩ := exists_of_decodeAll h
    exact ⟨is, map_typed_rawsFrom 0 is, rfl⟩
  · intro code e h
    obtain ⟨is, rest, hsplit⟩ := exists_split code
    have hrest : rest ≠ [] := by
      rintro rfl
      rw [hsplit.eq, List.append_nil, decodeAll_encodeAll] at h
      cases h
    obtain ⟨e', herror, hraw⟩ := decodeAll_of_split hsplit hrest
    rw [herror] at h
    cases h
    exact ⟨is, rest, hsplit, hrest, hraw, fun is' rest' h' => hsplit.unique h'⟩

end Instr

end Pledge
