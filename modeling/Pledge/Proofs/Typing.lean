-- Operands made by hand. They may be too few, too many or of the wrong kinds, and
-- a slot is as wide as a code address. They make an instruction exactly if they
-- begin with operands of the kinds that the opcode asks for.
import Pledge.Proofs.Decoding

namespace Pledge

namespace InstrWith

variable {O A α β : Type} {kind : OperandKind} {kinds : List OperandKind}

/-! ## Taking one operand -/

/-- The action takes the first operand if it is of this kind, and fails otherwise. -/
structure TakesOne (kind : OperandKind) (x : Take O A α) : Prop where
  nil : x.run [] = none
  cons : ∀ o rest, (o.kind = kind ∧ ∃ a, x.run (o :: rest) = some (a, rest)) ∨
    (o.kind ≠ kind ∧ x.run (o :: rest) = none)

theorem takesOne_slot : TakesOne .slot (takeSlot : Take O A UInt32) where
  nil := rfl
  cons o _ := by cases o <;> simp [takeSlot, StateT.run, OperandWith.kind]

theorem takesOne_value : TakesOne .value (takeValue : Take O A Word) where
  nil := rfl
  cons o _ := by cases o <;> simp [takeValue, StateT.run, OperandWith.kind]

theorem takesOne_function : TakesOne .function (takeFunction : Take O A Function) where
  nil := rfl
  cons o _ := by cases o <;> simp [takeFunction, StateT.run, OperandWith.kind]

theorem takesOne_offset : TakesOne .offset (takeOffset : Take O A O) where
  nil := rfl
  cons o _ := by cases o <;> simp [takeOffset, StateT.run, OperandWith.kind]

theorem takesOne_address : TakesOne .address (takeAddress : Take O A A) where
  nil := rfl
  cons o _ := by cases o <;> simp [takeAddress, StateT.run, OperandWith.kind]

/-! ## Taking the operands of an opcode -/

/-- The action succeeds exactly where operands of these kinds stand in front. -/
def Asks (kinds : List OperandKind) (x : Take O A α) : Prop :=
  ∀ os, (x.run os).isSome ↔ kinds <+: os.map OperandWith.kind

theorem asks_nothing (a : α) : Asks [] (pure a : Take O A α) :=
  fun _ => ⟨fun _ => List.nil_prefix, fun _ => rfl⟩

theorem TakesOne.asks {x : Take O A β} {f : β → Take O A α} (hx : TakesOne kind x)
    (hf : ∀ b, Asks kinds (f b)) : Asks (kind :: kinds) (x >>= f) := by
  intro os
  rw [StateT.run_bind]
  cases os with
  | nil =>
    rw [hx.nil]
    simp
  | cons o rest =>
    rw [List.map_cons, List.cons_prefix_cons]
    obtain ⟨hkind, b, hb⟩ | ⟨hkind, hnone⟩ := hx.cons o rest
    · rw [hb, ← hf b rest]
      simp [hkind]
    · rw [hnone]
      simp [Ne.symm hkind]

/-- Every opcode takes what its row of the table asks for. -/
theorem asks_take (op : Opcode) : Asks op.operands (take op : Take O A (InstrWith O A)) := by
  -- The opcodes stand together by their operands, which are taken one after the other.
  cases op with
  | nop | retSub | finImd | stpImd | slpImd | setPcs => exact asks_nothing _
  | clrDat | incDat | decDat | notDat | pshDat | popDat | slpDat | fizDat | stzDat =>
    exact takesOne_slot.asks fun _ => asks_nothing _
  | slpVal => exact takesOne_value.asks fun _ => asks_nothing _
  | jmpSub | jmpAdr | errAdr => exact takesOne_address.asks fun _ => asks_nothing _
  | setVal | addVal | subVal | mulVal | divVal | shlVal | shrVal =>
    exact takesOne_slot.asks fun _ => takesOne_value.asks fun _ => asks_nothing _
  | setDat | addDat | subDat | mulDat | divDat | borDat | andDat | xorDat | setInd | indDat | modDat
  | shlDat | shrDat =>
    exact takesOne_slot.asks fun _ => takesOne_slot.asks fun _ => asks_nothing _
  | setIdx | idxDat =>
    exact takesOne_slot.asks fun _ => takesOne_slot.asks fun _ => takesOne_slot.asks fun _ =>
      asks_nothing _
  | bzrDat | bnzDat =>
    exact takesOne_slot.asks fun _ => takesOne_offset.asks fun _ => asks_nothing _
  | bgtDat | bltDat | bgeDat | bleDat | beqDat | bneDat =>
    exact takesOne_slot.asks fun _ => takesOne_slot.asks fun _ => takesOne_offset.asks fun _ =>
      asks_nothing _
  | extFun => exact takesOne_function.asks fun _ => asks_nothing _
  | extFunVal =>
    exact takesOne_function.asks fun _ => takesOne_value.asks fun _ => asks_nothing _
  | extFunDat | extFunRet =>
    exact takesOne_function.asks fun _ => takesOne_slot.asks fun _ => asks_nothing _
  | extFunDat2 | extFunRetDat =>
    exact takesOne_function.asks fun _ => takesOne_slot.asks fun _ => takesOne_slot.asks fun _ =>
      asks_nothing _
  | extFunRetDat2 =>
    exact takesOne_function.asks fun _ => takesOne_slot.asks fun _ => takesOne_slot.asks fun _ =>
      takesOne_slot.asks fun _ => asks_nothing _

section

variable {op : Opcode} {os : List (OperandWith O A)}

theorem isSome_ofOperands? :
    (ofOperands? op os).isSome ↔ op.operands <+: os.map OperandWith.kind := by
  rw [ofOperands?, Option.isSome_map]
  exact asks_take op os

/-- The operands that are asked for are those of the instruction. -/
theorem exists_of_front (h : op.operands <+: os.map OperandWith.kind) :
    ∃ i : InstrWith O A, i.opcode = op ∧ i.operands = os.take op.operands.length ∧
      ofOperands? op os = some i := by
  have hkinds : (os.take op.operands.length).map OperandWith.kind = op.operands := by
    rw [List.map_take]
    exact (List.prefix_iff_eq_take.mp h).symm
  obtain ⟨i, hop, hos, _⟩ := exists_of_kinds hkinds
  have hfound := i.ofOperands?_operands (os.drop op.operands.length)
  rw [hos, List.take_append_drop, hop] at hfound
  exact ⟨i, hop, hos, hfound⟩

end

end InstrWith

namespace RawInstr

variable {r : RawInstr}

/-- What is found at the front of the bytes has the operands that were asked for and no others. -/
theorem exists_typed (h : r.opcode.operands <+: r.operands.map OperandWith.kind) :
    ∃ i : Instr, r.typed = .ok i ∧ i.opcode = r.opcode ∧ Instr.rawAt (Wire.toBytes i) 0 =
      .ok ⟨0, r.opcode, r.operands.take r.opcode.operands.length⟩ := by
  obtain ⟨i, hop, hos, hfound⟩ := InstrWith.exists_of_front h
  have htyped : r.typed = .ok i := by
    unfold typed
    rw [hfound]
  have hraw : Instr.rawAt (Wire.toBytes i) 0 = .ok (Instr.raw i 0) :=
    Instr.decodeFront_eq_ok.mpr ⟨i, rfl, List.prefix_rfl⟩
  refine ⟨i, htyped, hop, ?_⟩
  rw [hraw, Instr.raw, hop, hos]

theorem typed_of_other_kinds (h : ¬ r.opcode.operands <+: r.operands.map OperandWith.kind) :
    r.typed = .error (.malformed (.operandMismatch r.offset)) := by
  have hnone : InstrWith.ofOperands? r.opcode r.operands = none := by
    rw [← Option.not_isSome_iff_eq_none, InstrWith.isSome_ofOperands?]
    exact h
  unfold typed
  rw [hnone]

/-- Operands make an instruction exactly if their kinds begin with those that the opcode asks for.
The instruction keeps the opcode, and its bytes are decoded to the operands that were asked for;
those behind them are not in it. Otherwise the operands are refused, and the offset is named. -/
theorem the_first_kinds_make_the_instruction (r : RawInstr) :
    ((∃ i, r.typed = .ok i) ↔ r.opcode.operands <+: r.operands.map OperandWith.kind) ∧
    (∀ i, r.typed = .ok i → i.opcode = r.opcode ∧ Instr.rawAt (Wire.toBytes i) 0 =
      .ok ⟨0, r.opcode, r.operands.take r.opcode.operands.length⟩) ∧
    ∀ e, r.typed = .error e → e = .malformed (.operandMismatch r.offset) ∧
      e.message = s!"decoding error: operand mismatch at {r.offset}" := by
  by_cases h : r.opcode.operands <+: r.operands.map OperandWith.kind
  · obtain ⟨i, htyped, hop, hraw⟩ := exists_typed h
    rw [htyped]
    refine ⟨⟨fun _ => h, fun _ => ⟨i, rfl⟩⟩, ?_, ?_⟩
    · rintro _ ⟨⟩
      exact ⟨hop, hraw⟩
    · rintro _ ⟨⟩
  · rw [typed_of_other_kinds h]
    refine ⟨⟨?_, fun h' => absurd h' h⟩, ?_, ?_⟩
    · rintro ⟨_, ⟨⟩⟩
    · rintro _ ⟨⟩
    · rintro _ ⟨⟩
      exact ⟨rfl, rfl⟩

/-- A slot does not stand for a code address, though it is as wide. -/
example : typed ⟨7, .jmpAdr, [.slot 0]⟩ = .error (.malformed (.operandMismatch 7)) := rfl

end RawInstr

end Pledge
