-- The opcodes of the machine: for each its byte, its name and the kinds of
-- its operands. The operands have fixed widths, so an opcode alone tells how
-- long its instruction is.

namespace Pledge

inductive OperandKind where
  /-- A slot of the data segment. -/
  | slot
  | value
  | function
  /-- A distance from the start of the instruction. -/
  | offset
  /-- A position in the code segment. -/
  | address
  deriving DecidableEq, Repr

def OperandKind.width : OperandKind → Nat
  | slot => 4
  | value => 8
  | function => 2
  | offset => 1
  | address => 4

inductive Opcode where
  | nop
  | setVal
  | setDat
  | clrDat
  | incDat
  | decDat
  | addDat
  | subDat
  | mulDat
  | divDat
  | borDat
  | andDat
  | xorDat
  | notDat
  | setInd
  | setIdx
  | pshDat
  | popDat
  | jmpSub
  | retSub
  | indDat
  | idxDat
  | modDat
  | shlDat
  | shrDat
  | jmpAdr
  | bzrDat
  | bnzDat
  | bgtDat
  | bltDat
  | bgeDat
  | bleDat
  | beqDat
  | bneDat
  | slpDat
  | fizDat
  | stzDat
  | finImd
  | stpImd
  | slpImd
  | errAdr
  | slpVal
  | setPcs
  | extFun
  | extFunDat
  | extFunDat2
  | extFunRet
  | extFunRetDat
  | extFunRetDat2
  | extFunVal
  | addVal
  | subVal
  | mulVal
  | divVal
  | shlVal
  | shrVal
  deriving DecidableEq, Repr

namespace Opcode

/-- One row of the opcode table. -/
structure Entry where
  byte : UInt8
  mnemonic : String
  operands : List OperandKind

def entry : Opcode → Entry
  | nop => ⟨0x7f, "NOP", []⟩
  | setVal => ⟨0x01, "SET_VAL", [.slot, .value]⟩
  | setDat => ⟨0x02, "SET_DAT", [.slot, .slot]⟩
  | clrDat => ⟨0x03, "CLR_DAT", [.slot]⟩
  | incDat => ⟨0x04, "INC_DAT", [.slot]⟩
  | decDat => ⟨0x05, "DEC_DAT", [.slot]⟩
  | addDat => ⟨0x06, "ADD_DAT", [.slot, .slot]⟩
  | subDat => ⟨0x07, "SUB_DAT", [.slot, .slot]⟩
  | mulDat => ⟨0x08, "MUL_DAT", [.slot, .slot]⟩
  | divDat => ⟨0x09, "DIV_DAT", [.slot, .slot]⟩
  | borDat => ⟨0x0a, "BOR_DAT", [.slot, .slot]⟩
  | andDat => ⟨0x0b, "AND_DAT", [.slot, .slot]⟩
  | xorDat => ⟨0x0c, "XOR_DAT", [.slot, .slot]⟩
  | notDat => ⟨0x0d, "NOT_DAT", [.slot]⟩
  | setInd => ⟨0x0e, "SET_IND", [.slot, .slot]⟩
  | setIdx => ⟨0x0f, "SET_IDX", [.slot, .slot, .slot]⟩
  | pshDat => ⟨0x10, "PSH_DAT", [.slot]⟩
  | popDat => ⟨0x11, "POP_DAT", [.slot]⟩
  | jmpSub => ⟨0x12, "JMP_SUB", [.address]⟩
  | retSub => ⟨0x13, "RET_SUB", []⟩
  | indDat => ⟨0x14, "IND_DAT", [.slot, .slot]⟩
  | idxDat => ⟨0x15, "IDX_DAT", [.slot, .slot, .slot]⟩
  | modDat => ⟨0x16, "MOD_DAT", [.slot, .slot]⟩
  | shlDat => ⟨0x17, "SHL_DAT", [.slot, .slot]⟩
  | shrDat => ⟨0x18, "SHR_DAT", [.slot, .slot]⟩
  | jmpAdr => ⟨0x1a, "JMP_ADR", [.address]⟩
  | bzrDat => ⟨0x1b, "BZR_DAT", [.slot, .offset]⟩
  | bnzDat => ⟨0x1e, "BNZ_DAT", [.slot, .offset]⟩
  | bgtDat => ⟨0x1f, "BGT_DAT", [.slot, .slot, .offset]⟩
  | bltDat => ⟨0x20, "BLT_DAT", [.slot, .slot, .offset]⟩
  | bgeDat => ⟨0x21, "BGE_DAT", [.slot, .slot, .offset]⟩
  | bleDat => ⟨0x22, "BLE_DAT", [.slot, .slot, .offset]⟩
  | beqDat => ⟨0x23, "BEQ_DAT", [.slot, .slot, .offset]⟩
  | bneDat => ⟨0x24, "BNE_DAT", [.slot, .slot, .offset]⟩
  | slpDat => ⟨0x25, "SLP_DAT", [.slot]⟩
  | fizDat => ⟨0x26, "FIZ_DAT", [.slot]⟩
  | stzDat => ⟨0x27, "STZ_DAT", [.slot]⟩
  | finImd => ⟨0x28, "FIN_IMD", []⟩
  | stpImd => ⟨0x29, "STP_IMD", []⟩
  | slpImd => ⟨0x2a, "SLP_IMD", []⟩
  | errAdr => ⟨0x2b, "ERR_ADR", [.address]⟩
  | slpVal => ⟨0x2c, "SLP_VAL", [.value]⟩
  | setPcs => ⟨0x30, "SET_PCS", []⟩
  | extFun => ⟨0x32, "EXT_FUN", [.function]⟩
  | extFunDat => ⟨0x33, "EXT_FUN_DAT", [.function, .slot]⟩
  | extFunDat2 => ⟨0x34, "EXT_FUN_DAT_2", [.function, .slot, .slot]⟩
  | extFunRet => ⟨0x35, "EXT_FUN_RET", [.function, .slot]⟩
  | extFunRetDat => ⟨0x36, "EXT_FUN_RET_DAT", [.function, .slot, .slot]⟩
  | extFunRetDat2 => ⟨0x37, "EXT_FUN_RET_DAT_2", [.function, .slot, .slot, .slot]⟩
  | extFunVal => ⟨0x38, "EXT_FUN_VAL", [.function, .value]⟩
  | addVal => ⟨0x46, "ADD_VAL", [.slot, .value]⟩
  | subVal => ⟨0x47, "SUB_VAL", [.slot, .value]⟩
  | mulVal => ⟨0x48, "MUL_VAL", [.slot, .value]⟩
  | divVal => ⟨0x49, "DIV_VAL", [.slot, .value]⟩
  | shlVal => ⟨0x4a, "SHL_VAL", [.slot, .value]⟩
  | shrVal => ⟨0x4b, "SHR_VAL", [.slot, .value]⟩

/-- The byte in front of the operands. -/
def byte (op : Opcode) : UInt8 := op.entry.byte

/-- The name of an opcode in listings. -/
def mnemonic (op : Opcode) : String := op.entry.mnemonic

/-- The kinds of the operands, in order. -/
def operands (op : Opcode) : List OperandKind := op.entry.operands

/-- The length of the instruction: one byte and its operands. -/
def size (op : Opcode) : Nat := op.operands.foldl (fun size kind => size + kind.width) 1

/-- Whether the instruction may branch: its last operand is an offset. -/
def isBranch (op : Opcode) : Bool := op.operands.getLast? == some .offset

/-- No instruction is longer than this. -/
def maxSize : Nat := 15

def all : List Opcode := [
  nop, setVal, setDat, clrDat, incDat, decDat, addDat, subDat, mulDat, divDat, borDat, andDat,
  xorDat, notDat, setInd, setIdx, pshDat, popDat, jmpSub, retSub, indDat, idxDat, modDat, shlDat,
  shrDat, jmpAdr, bzrDat, bnzDat, bgtDat, bltDat, bgeDat, bleDat, beqDat, bneDat, slpDat, fizDat,
  stzDat, finImd, stpImd, slpImd, errAdr, slpVal, setPcs, extFun, extFunDat, extFunDat2, extFunRet,
  extFunRetDat, extFunRetDat2, extFunVal, addVal, subVal, mulVal, divVal, shlVal, shrVal]

def ofByte? (b : UInt8) : Option Opcode := all.find? (·.byte == b)

def ofMnemonic? (name : String) : Option Opcode := all.find? (·.mnemonic == name)

/-- A byte is in the table for each opcode. -/
theorem ofByte?_byte (op : Opcode) : ofByte? op.byte = some op := by
  cases op <;> rfl

/-- Only its own byte finds an opcode. -/
theorem byte_of_ofByte? {b : UInt8} {op : Opcode} (h : ofByte? b = some op) : op.byte = b := by
  simpa using List.find?_some h

/-- The bound on the length holds for each opcode. -/
theorem size_le_maxSize (op : Opcode) : op.size ≤ maxSize := by
  cases op <;> decide

end Opcode

end Pledge
