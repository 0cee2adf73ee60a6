-- Instructions with typed operands, grouped by what they do.
import Pledge.Instruction.Operand

namespace Pledge

/-- Changes of one word in place. -/
inductive UnaryOp where
  | increment
  | decrement
  | complement
  deriving DecidableEq, Repr

inductive BinaryOp where
  | add
  | sub
  | mul
  | div
  | or
  | and
  | xor
  | mod
  | shl
  | shr
  deriving DecidableEq, Repr

/-- Arithmetic that takes its second word from the instruction. -/
inductive ImmediateOp where
  | add
  | sub
  | mul
  | div
  | shl
  | shr
  deriving DecidableEq, Repr

/-- The same arithmetic between two words. -/
def ImmediateOp.binary : ImmediateOp → BinaryOp
  | add => .add
  | sub => .sub
  | mul => .mul
  | div => .div
  | shl => .shl
  | shr => .shr

inductive Comparison where
  | gt
  | lt
  | ge
  | le
  | eq
  | ne
  deriving DecidableEq, Repr

/-- The slots that hold the arguments of a call. -/
inductive Arguments where
  | none
  | one (arg : UInt32)
  | two (arg₁ arg₂ : UInt32)
  deriving DecidableEq, Repr

/-- An instruction whose branch offsets are of type `O` and code addresses of type `A`. -/
inductive InstrWith (O A : Type) where
  | nop
  | setValue (dest : UInt32) (value : Word)
  | copy (dest src : UInt32)
  | clear (dest : UInt32)
  | unary (op : UnaryOp) (dest : UInt32)
  | binary (op : BinaryOp) (dest src : UInt32)
  | immediate (op : ImmediateOp) (dest : UInt32) (value : Word)
  /-- Loads from the slot whose number is in `ptr`. -/
  | loadIndirect (dest ptr : UInt32)
  /-- Loads from the slot whose number is the sum of two slots. -/
  | loadIndexed (dest base index : UInt32)
  /-- Stores to the slot whose number is in `ptr`. -/
  | storeIndirect (ptr src : UInt32)
  /-- Stores to the slot whose number is the sum of two slots. -/
  | storeIndexed (base index src : UInt32)
  | push (src : UInt32)
  | pop (dest : UInt32)
  | jumpSub (target : A)
  | returnSub
  | jump (target : A)
  | branchZero (src : UInt32) (offset : O)
  | branchNonzero (src : UInt32) (offset : O)
  | branch (cmp : Comparison) (left right : UInt32) (offset : O)
  /-- Sleeps until the block height in a slot. -/
  | sleepUntil (height : UInt32)
  /-- Sleeps until the next block. -/
  | sleepBlock
  /-- Sleeps for a number of blocks. -/
  | sleepFor (blocks : Word)
  | finishIfZero (src : UInt32)
  | stopIfZero (src : UInt32)
  | finish
  | stop
  /-- Sets the place where a fault goes on. -/
  | onFault (target : A)
  /-- Sets the place where a stop goes on to the next instruction. -/
  | setRestart
  | call (f : Function) (args : Arguments)
  | callValue (f : Function) (value : Word)
  /-- Calls and keeps the result. -/
  | callInto (f : Function) (dest : UInt32) (args : Arguments)
  deriving DecidableEq, Repr

/-- An instruction as code holds it. -/
abbrev Instr := InstrWith Int8 UInt32

namespace InstrWith

variable {O A : Type}

def opcode : InstrWith O A → Opcode
  | nop => .nop
  | setValue .. => .setVal
  | copy .. => .setDat
  | clear _ => .clrDat
  | unary .increment _ => .incDat
  | unary .decrement _ => .decDat
  | unary .complement _ => .notDat
  | binary .add .. => .addDat
  | binary .sub .. => .subDat
  | binary .mul .. => .mulDat
  | binary .div .. => .divDat
  | binary .or .. => .borDat
  | binary .and .. => .andDat
  | binary .xor .. => .xorDat
  | binary .mod .. => .modDat
  | binary .shl .. => .shlDat
  | binary .shr .. => .shrDat
  | immediate .add .. => .addVal
  | immediate .sub .. => .subVal
  | immediate .mul .. => .mulVal
  | immediate .div .. => .divVal
  | immediate .shl .. => .shlVal
  | immediate .shr .. => .shrVal
  | loadIndirect .. => .setInd
  | loadIndexed .. => .setIdx
  | storeIndirect .. => .indDat
  | storeIndexed .. => .idxDat
  | push _ => .pshDat
  | pop _ => .popDat
  | jumpSub _ => .jmpSub
  | returnSub => .retSub
  | jump _ => .jmpAdr
  | branchZero .. => .bzrDat
  | branchNonzero .. => .bnzDat
  | branch .gt .. => .bgtDat
  | branch .lt .. => .bltDat
  | branch .ge .. => .bgeDat
  | branch .le .. => .bleDat
  | branch .eq .. => .beqDat
  | branch .ne .. => .bneDat
  | sleepUntil _ => .slpDat
  | sleepBlock => .slpImd
  | sleepFor _ => .slpVal
  | finishIfZero _ => .fizDat
  | stopIfZero _ => .stzDat
  | finish => .finImd
  | stop => .stpImd
  | onFault _ => .errAdr
  | setRestart => .setPcs
  | call _ .none => .extFun
  | call _ (.one _) => .extFunDat
  | call _ (.two _ _) => .extFunDat2
  | callValue .. => .extFunVal
  | callInto _ _ .none => .extFunRet
  | callInto _ _ (.one _) => .extFunRetDat
  | callInto _ _ (.two _ _) => .extFunRetDat2

/-- The operands of an instruction, in the order of the opcode table. -/
def operands : InstrWith O A → List (OperandWith O A)
  | nop => []
  | setValue dest value => [.slot dest, .value value]
  | copy dest src => [.slot dest, .slot src]
  | clear dest => [.slot dest]
  | unary _ dest => [.slot dest]
  | binary _ dest src => [.slot dest, .slot src]
  | immediate _ dest value => [.slot dest, .value value]
  | loadIndirect dest ptr => [.slot dest, .slot ptr]
  | loadIndexed dest base index => [.slot dest, .slot base, .slot index]
  | storeIndirect ptr src => [.slot ptr, .slot src]
  | storeIndexed base index src => [.slot base, .slot index, .slot src]
  | push src => [.slot src]
  | pop dest => [.slot dest]
  | jumpSub target => [.address target]
  | returnSub => []
  | jump target => [.address target]
  | branchZero src offset => [.slot src, .offset offset]
  | branchNonzero src offset => [.slot src, .offset offset]
  | branch _ left right offset => [.slot left, .slot right, .offset offset]
  | sleepUntil height => [.slot height]
  | sleepBlock => []
  | sleepFor blocks => [.value blocks]
  | finishIfZero src => [.slot src]
  | stopIfZero src => [.slot src]
  | finish => []
  | stop => []
  | onFault target => [.address target]
  | setRestart => []
  | call f .none => [.function f]
  | call f (.one arg) => [.function f, .slot arg]
  | call f (.two arg₁ arg₂) => [.function f, .slot arg₁, .slot arg₂]
  | callValue f value => [.function f, .value value]
  | callInto f dest .none => [.function f, .slot dest]
  | callInto f dest (.one arg) => [.function f, .slot dest, .slot arg]
  | callInto f dest (.two arg₁ arg₂) => [.function f, .slot dest, .slot arg₁, .slot arg₂]

def size (i : InstrWith O A) : Nat := i.opcode.size

/-! ## From operands -/

/-- Takes operands from the front of a list, each of the kind that is asked for. -/
abbrev Take (O A : Type) := StateT (List (OperandWith O A)) Option

def takeSlot : Take O A UInt32
  | .slot n :: rest => some (n, rest)
  | _ => none

def takeValue : Take O A Word
  | .value v :: rest => some (v, rest)
  | _ => none

def takeFunction : Take O A Function
  | .function f :: rest => some (f, rest)
  | _ => none

def takeOffset : Take O A O
  | .offset o :: rest => some (o, rest)
  | _ => none

def takeAddress : Take O A A
  | .address a :: rest => some (a, rest)
  | _ => none

/-- Takes the operands of an opcode and makes the instruction of them. -/
def take : Opcode → Take O A (InstrWith O A)
  | .nop => return nop
  | .setVal => return setValue (← takeSlot) (← takeValue)
  | .setDat => return copy (← takeSlot) (← takeSlot)
  | .clrDat => return clear (← takeSlot)
  | .incDat => return unary .increment (← takeSlot)
  | .decDat => return unary .decrement (← takeSlot)
  | .addDat => return binary .add (← takeSlot) (← takeSlot)
  | .subDat => return binary .sub (← takeSlot) (← takeSlot)
  | .mulDat => return binary .mul (← takeSlot) (← takeSlot)
  | .divDat => return binary .div (← takeSlot) (← takeSlot)
  | .borDat => return binary .or (← takeSlot) (← takeSlot)
  | .andDat => return binary .and (← takeSlot) (← takeSlot)
  | .xorDat => return binary .xor (← takeSlot) (← takeSlot)
  | .notDat => return unary .complement (← takeSlot)
  | .setInd => return loadIndirect (← takeSlot) (← takeSlot)
  | .setIdx => return loadIndexed (← takeSlot) (← takeSlot) (← takeSlot)
  | .pshDat => return push (← takeSlot)
  | .popDat => return pop (← takeSlot)
  | .jmpSub => return jumpSub (← takeAddress)
  | .retSub => return returnSub
  | .indDat => return storeIndirect (← takeSlot) (← takeSlot)
  | .idxDat => return storeIndexed (← takeSlot) (← takeSlot) (← takeSlot)
  | .modDat => return binary .mod (← takeSlot) (← takeSlot)
  | .shlDat => return binary .shl (← takeSlot) (← takeSlot)
  | .shrDat => return binary .shr (← takeSlot) (← takeSlot)
  | .jmpAdr => return jump (← takeAddress)
  | .bzrDat => return branchZero (← takeSlot) (← takeOffset)
  | .bnzDat => return branchNonzero (← takeSlot) (← takeOffset)
  | .bgtDat => return branch .gt (← takeSlot) (← takeSlot) (← takeOffset)
  | .bltDat => return branch .lt (← takeSlot) (← takeSlot) (← takeOffset)
  | .bgeDat => return branch .ge (← takeSlot) (← takeSlot) (← takeOffset)
  | .bleDat => return branch .le (← takeSlot) (← takeSlot) (← takeOffset)
  | .beqDat => return branch .eq (← takeSlot) (← takeSlot) (← takeOffset)
  | .bneDat => return branch .ne (← takeSlot) (← takeSlot) (← takeOffset)
  | .slpDat => return sleepUntil (← takeSlot)
  | .fizDat => return finishIfZero (← takeSlot)
  | .stzDat => return stopIfZero (← takeSlot)
  | .finImd => return finish
  | .stpImd => return stop
  | .slpImd => return sleepBlock
  | .errAdr => return onFault (← takeAddress)
  | .slpVal => return sleepFor (← takeValue)
  | .setPcs => return setRestart
  | .extFun => return call (← takeFunction) .none
  | .extFunDat => return call (← takeFunction) (.one (← takeSlot))
  | .extFunDat2 => return call (← takeFunction) (.two (← takeSlot) (← takeSlot))
  | .extFunRet => return callInto (← takeFunction) (← takeSlot) .none
  | .extFunRetDat => return callInto (← takeFunction) (← takeSlot) (.one (← takeSlot))
  | .extFunRetDat2 =>
    return callInto (← takeFunction) (← takeSlot) (.two (← takeSlot) (← takeSlot))
  | .extFunVal => return callValue (← takeFunction) (← takeValue)
  | .addVal => return immediate .add (← takeSlot) (← takeValue)
  | .subVal => return immediate .sub (← takeSlot) (← takeValue)
  | .mulVal => return immediate .mul (← takeSlot) (← takeValue)
  | .divVal => return immediate .div (← takeSlot) (← takeValue)
  | .shlVal => return immediate .shl (← takeSlot) (← takeValue)
  | .shrVal => return immediate .shr (← takeSlot) (← takeValue)

/-- The instruction of an opcode and its operands. Operands beyond those it needs do not count. -/
def ofOperands? (op : Opcode) (operands : List (OperandWith O A)) : Option (InstrWith O A) :=
  ((take op).run operands).map Prod.fst

/-! ## Filling in -/

/-- Fills in the branch offset and the code address of an instruction. No instruction has both,
and none has two of a kind. -/
def fillIn {ε O' A' : Type} (offset : O → Except ε O') (address : A → Except ε A') :
    InstrWith O A → Except ε (InstrWith O' A')
  | nop => .ok nop
  | setValue dest value => .ok (setValue dest value)
  | copy dest src => .ok (copy dest src)
  | clear dest => .ok (clear dest)
  | unary op dest => .ok (unary op dest)
  | binary op dest src => .ok (binary op dest src)
  | immediate op dest value => .ok (immediate op dest value)
  | loadIndirect dest ptr => .ok (loadIndirect dest ptr)
  | loadIndexed dest base index => .ok (loadIndexed dest base index)
  | storeIndirect ptr src => .ok (storeIndirect ptr src)
  | storeIndexed base index src => .ok (storeIndexed base index src)
  | push src => .ok (push src)
  | pop dest => .ok (pop dest)
  | jumpSub target => jumpSub <$> address target
  | returnSub => .ok returnSub
  | jump target => jump <$> address target
  | branchZero src o => branchZero src <$> offset o
  | branchNonzero src o => branchNonzero src <$> offset o
  | branch cmp left right o => branch cmp left right <$> offset o
  | sleepUntil height => .ok (sleepUntil height)
  | sleepBlock => .ok sleepBlock
  | sleepFor blocks => .ok (sleepFor blocks)
  | finishIfZero src => .ok (finishIfZero src)
  | stopIfZero src => .ok (stopIfZero src)
  | finish => .ok finish
  | stop => .ok stop
  | onFault target => onFault <$> address target
  | setRestart => .ok setRestart
  | call f args => .ok (call f args)
  | callValue f value => .ok (callValue f value)
  | callInto f dest args => .ok (callInto f dest args)

/-! ## Laws -/

/-- The operands of an instruction are of the kinds that its opcode asks for. -/
theorem kind_operands (i : InstrWith O A) :
    i.operands.map OperandWith.kind = i.opcode.operands := by
  cases i with
  | unary op _ => cases op <;> rfl
  | binary op _ _ => cases op <;> rfl
  | immediate op _ _ => cases op <;> rfl
  | branch cmp _ _ _ => cases cmp <;> rfl
  | call _ args => cases args <;> rfl
  | callInto _ _ args => cases args <;> rfl
  | _ => rfl

/-- An instruction is found again from its opcode and operands, whatever stands behind them. -/
theorem ofOperands?_operands (i : InstrWith O A) (more : List (OperandWith O A)) :
    ofOperands? i.opcode (i.operands ++ more) = some i := by
  cases i with
  | unary op _ => cases op <;> rfl
  | binary op _ _ => cases op <;> rfl
  | immediate op _ _ => cases op <;> rfl
  | branch cmp _ _ _ => cases cmp <;> rfl
  | call _ args => cases args <;> rfl
  | callInto _ _ args => cases args <;> rfl
  | _ => rfl

end InstrWith

/-- The wire form: the opcode byte, then each operand. -/
instance : Wire.Encode Instr where
  pieces i := [i.opcode.byte] :: i.operands.map Operand.bytes

end Pledge
