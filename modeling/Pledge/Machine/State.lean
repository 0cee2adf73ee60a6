-- The state of a machine, and what it sees of the chain while it runs.
import Pledge.Address
import Pledge.Instruction.Basic
import Pledge.ProgramError

namespace Pledge

/-- The timestamp of a transaction: the height of its block in the upper half of the word, and its
number in the block in the lower. -/
def timestamp (height sequence : UInt32) : Word :=
  Int64.ofNat (height.toNat * 0x100000000 + sequence.toNat)

inductive TxKind where
  | payment
  | message
  deriving DecidableEq, Repr

def TxKind.word : TxKind → Word
  | payment => 0
  | message => 1

/-- Money, or a message with money, on its way to the machine. -/
structure Transfer where
  kind : TxKind
  sender : Address
  amount : Word
  deriving DecidableEq, Repr

/-- A transfer that stands in a block. -/
structure Tx extends Transfer where
  timestamp : Word
  deriving DecidableEq, Repr

/-- A payment by the machine. -/
structure Payment where
  recipient : Address
  amount : Word
  height : UInt32
  deriving DecidableEq, Repr

/-- Why an instruction cannot be executed. The program may go on at its handler. -/
inductive Fault where
  | slotOutOfBounds (slot : Nat)
  | invalidSlotReference (value : Word)
  | arithmetic
  | missingArgument (index : Nat)
  | noAddress (reason : Address.Error)
  | branchBeforeStart (position : Nat)
  | userStackUnderflow
  | callStackUnderflow
  | invalidSleepHeight
  | invalidSleepLength
  | timestampOverflow
  | unsupported (f : Function)
  | code (reason : ProgramError)
  /-- The machine has run too long. No handler is asked. -/
  | stepLimit
  deriving DecidableEq, Repr

def Fault.message : Fault → String
  | .slotOutOfBounds slot => s!"slot {slot} out of bounds"
  | .invalidSlotReference value => s!"invalid slot reference {value.toInt}"
  | .arithmetic => "arithmetic fault"
  | .missingArgument index => s!"missing argument {index}"
  | .noAddress reason => s!"no address in B: {reason.message}"
  | .branchBeforeStart position => s!"branch before start of code at {position}"
  | .userStackUnderflow => "user stack underflow"
  | .callStackUnderflow => "call stack underflow"
  | .invalidSleepHeight => "invalid sleep height"
  | .invalidSleepLength => "invalid sleep length"
  | .timestampOverflow => "timestamp overflow"
  | .unsupported f => s!"unsupported function {f.mnemonic}"
  | .code reason => reason.message
  | .stepLimit => "step limit reached"

/-- Why the node itself gives up: its own arithmetic leaves its range. Nothing goes on from
there. -/
inductive Abort where
  | heightOverflow
  | sequenceOverflow
  | balanceOverflow
  | negativeBalance
  | slotOverflow
  | minutesOverflow
  | totalOverflow
  | noSuchSlot
  deriving DecidableEq, Repr

/-- Whether and when a machine runs. A fault is part of the status that it ends a machine with, and
is kept nowhere else, so no other status has one. -/
inductive Status where
  | ready
  | sleeping (wake : UInt32)
  | finished
  | faulted (fault : Fault)
  deriving DecidableEq, Repr

structure Machine where
  code : Array UInt8
  data : Array Word
  a : Quad
  b : Quad
  /-- The position of the next instruction. -/
  pc : Nat
  /-- Where a stopped program goes on. -/
  restart : Nat
  /-- Where a fault goes on. -/
  handler : Option Nat
  callStack : List Nat
  userStack : List Word
  status : Status
  creator : Address
  /-- The timestamp of the deployment. -/
  created : Word
  balance : Word
  /-- The payments made so far, oldest first. -/
  payments : Array Payment
  deriving DecidableEq, Repr

/-- What a running machine sees of the chain: the height, and the transactions received so far,
oldest first. -/
structure View where
  height : UInt32
  txs : Array Tx

namespace Machine

/-- The fault that ended the machine, if one did. -/
def fault? (m : Machine) : Option Fault :=
  match m.status with
  | .faulted f => some f
  | _ => none

/-- Whether the machine runs in a block of this height. -/
def awakeAt (m : Machine) (height : UInt32) : Bool :=
  match m.status with
  | .ready => true
  | .sleeping wake => wake ≤ height
  | .finished => false
  | .faulted _ => false

/-- Whether the machine will never run again. -/
def isDone (m : Machine) : Bool :=
  match m.status with
  | .finished => true
  | .faulted _ => true
  | _ => false

/-! ## Registers -/

def register (m : Machine) : Register → Quad
  | .a => m.a
  | .b => m.b

def setRegister (m : Machine) (r : Register) (q : Quad) : Machine :=
  match r with
  | .a => { m with a := q }
  | .b => { m with b := q }

/-! ## Money -/

/-- The part of an amount that a balance can pay. -/
def payable (balance amount : Word) : Word :=
  if amount < 0 then 0 else if balance < amount then balance else amount

/-- Pays an amount, or what there is of it. A payment of nothing is not made. -/
def pay (height : UInt32) (recipient : Address) (amount : Word) (m : Machine) :
    Except Abort Machine :=
  if m.balance < 0 then .error .negativeBalance
  else
    let paid := payable m.balance amount
    if paid = 0 then .ok m
    else .ok { m with
      balance := m.balance - paid
      payments := m.payments.push ⟨recipient, paid, height⟩ }

end Machine

end Pledge
