-- Execution: one instruction, then one activation of at most a hundred
-- thousand instructions.
import Pledge.Instruction.Decode
import Pledge.Machine.Call

namespace Pledge

/-- How an instruction ends. -/
inductive Flow where
  | next
  | sleep (wake : UInt32)
  | stop
  | finish
  deriving DecidableEq, Repr

namespace Exec

def goto (position : Nat) : Exec Flow := fun m => .ok .next { m with pc := position }

/-- Sleeps until a height and goes on at a position. -/
def sleepAt (position : Nat) (wake : UInt32) : Exec Flow := fun m =>
  .ok (.sleep wake) { m with pc := position }

/-- Goes on at a distance from a position if a condition holds, and else at `next`. -/
def branchIf (condition : Bool) (position next : Nat) (offset : Int8) : Exec Flow :=
  if condition then
    match positionAfter? position offset.toInt with
    | some target => goto target
    | none => fault (.branchBeforeStart position)
  else goto next

/-- The words in the argument slots of a call. -/
def argumentWords : Arguments → Exec (List Word)
  | .none => return []
  | .one arg => return [← load arg.toNat]
  | .two arg₁ arg₂ => return [← load arg₁.toNat, ← load arg₂.toNat]

def execute (view : View) (position : Nat) (i : Instr) : Exec Flow := do
  let next := position + i.size
  match i with
  | .nop => goto next
  | .setValue dest value =>
    store dest.toNat value
    goto next
  | .copy dest src =>
    store dest.toNat (← load src.toNat)
    goto next
  | .clear dest =>
    store dest.toNat 0
    goto next
  | .unary op dest =>
    store dest.toNat (op.apply (← load dest.toNat))
    goto next
  | .binary op dest src =>
    update dest.toNat op (← load src.toNat)
    goto next
  | .immediate op dest value =>
    update dest.toNat op.binary value
    goto next
  | .loadIndirect dest ptr =>
    let slot ← slotOf (← load ptr.toNat)
    store dest.toNat (← load slot)
    goto next
  | .loadIndexed dest base index =>
    let slot ← slotOf ((← load base.toNat) + (← load index.toNat))
    store dest.toNat (← load slot)
    goto next
  | .storeIndirect ptr src =>
    let slot ← slotOf (← load ptr.toNat)
    store slot (← load src.toNat)
    goto next
  | .storeIndexed base index src =>
    let slot ← slotOf ((← load base.toNat) + (← load index.toNat))
    store slot (← load src.toNat)
    goto next
  | .push src =>
    pushUser (← load src.toNat)
    goto next
  | .pop dest =>
    store dest.toNat (← popUser)
    goto next
  | .jumpSub target =>
    pushCall next
    goto target.toNat
  | .returnSub => goto (← popCall)
  | .jump target => goto target.toNat
  | .branchZero src offset =>
    branchIf ((← load src.toNat) == 0) position next offset
  | .branchNonzero src offset =>
    branchIf ((← load src.toNat) != 0) position next offset
  | .branch cmp left right offset =>
    let l ← load left.toNat
    let r ← load right.toNat
    branchIf (cmp.holds l r) position next offset
  | .sleepUntil height =>
    let wake ← orFault (Word.toUInt32? (← load height.toNat)) .invalidSleepHeight
    sleepAt next wake
  | .sleepBlock =>
    if view.height.toNat + 1 < 0x100000000 then sleepAt next (view.height + 1)
    else abort .heightOverflow
  | .sleepFor blocks =>
    let blocks ← orFault (Word.toUInt32? blocks) .invalidSleepLength
    sleepAt next (UInt32.ofNat (min (view.height.toNat + blocks.toNat) 0xffffffff))
  | .finishIfZero src =>
    if (← load src.toNat) == 0 then return .finish else goto next
  | .stopIfZero src =>
    if (← load src.toNat) == 0 then return .stop else goto next
  | .finish => return .finish
  | .stop => return .stop
  | .onFault target =>
    modify fun m => { m with handler := some target.toNat }
    goto next
  | .setRestart =>
    modify fun m => { m with restart := next }
    goto next
  | .call f args =>
    let _ ← call view f (← argumentWords args)
    goto next
  | .callValue f value =>
    let _ ← call view f [value]
    goto next
  | .callInto f dest args =>
    store dest.toNat (← call view f (← argumentWords args))
    goto next

def step (view : View) : Exec Flow := fun m =>
  match Instr.fetch m.code m.pc with
  | .ok i => execute view m.pc i m
  | .error reason => .error (.fault (.code reason)) m

end Exec

namespace Machine

/-- The most instructions of one activation. -/
def stepLimit : Nat := 100000

/-- Pays what is left to the creator and ends. -/
def finish (view : View) (m : Machine) : Except Abort Machine := do
  let m ← m.pay view.height m.creator m.balance
  return { m with status := .finished }

/-- Executes at most `n` instructions, until the machine sleeps, stops, finishes or faults. A fault
goes on at the handler, if there is one. -/
def runFor (view : View) : Nat → Machine → Except Abort Machine
  | 0, m => .ok { m with status := .faulted .stepLimit }
  | n + 1, m =>
    match Exec.step view m with
    | .ok .next m => runFor view n m
    | .ok (.sleep wake) m => .ok { m with status := .sleeping wake }
    | .ok .stop m => .ok { m with pc := m.restart, status := .ready }
    | .ok .finish m => finish view m
    | .error (.fault f) m =>
      match m.handler with
      | some position => runFor view n { m with pc := position }
      | none => .ok { m with status := .faulted f }
    | .error (.abort a) _ => .error a

/-- One activation. -/
def run (view : View) (m : Machine) : Except Abort Machine := runFor view stepLimit m

end Machine

end Pledge
