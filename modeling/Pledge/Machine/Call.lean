-- Calls of the functions of the host.
import Pledge.Machine.Exec

namespace Pledge

namespace Exec

def argument (args : List Word) (i : Nat) : Exec Word := orFault args[i]? (.missingArgument i)

def zeroQuad : Quad := #v[0, 0, 0, 0]

/-- One for true and zero for false. -/
def truth (b : Bool) : Word := if b then 1 else 0

/-- The transaction whose number, counted from one, is in the first word of A. -/
def txInA? (view : View) (m : Machine) : Option Tx :=
  let n := m.a.first.toInt
  if 0 < n then view.txs[n.toNat - 1]? else none

/-- A word of the transaction in A, or minus one if there is none. -/
def fromTx (view : View) (field : Tx → Word) : Exec Word := fun m =>
  .ok ((txInA? view m).elim (-1) field) m

/-- What register A holds after a search for the first transaction after a timestamp: its number,
or zero. -/
def searchResult (view : View) (after : Word) : Quad :=
  match view.txs.findIdx? fun tx => after < tx.timestamp with
  | some i => #v[Int64.ofNat (i + 1), 0, 0, 0]
  | none => zeroQuad

def addressInB : Exec Address := fun m =>
  match Address.ofWords m.b with
  | .ok address => .ok address m
  | .error reason => .error (.fault (.noAddress reason)) m

/-- A timestamp moved by minutes, a block each: the start of the block at that height. -/
def movedTimestamp (t minutes : Word) : Exec Word :=
  let height := t.toInt / 0x100000000 + minutes.toInt
  if Word.Fits height then
    if 0 ≤ height ∧ height < 0x100000000 then pure (timestamp (UInt32.ofNat height.toNat) 0)
    else fault .timestampOverflow
  else abort .minutesOverflow

/-- Calls a function. Most give zero. -/
def call (view : View) (f : Function) (args : List Word) : Exec Word := do
  match f with
  | .getWord r i => return (← getRegister r).get i
  | .setWord r i =>
    putWord r i (← argument args 0)
    return 0
  | .setPair r half =>
    putWord r half.first (← argument args 0)
    putWord r half.second (← argument args 1)
    return 0
  | .clear r =>
    putRegister r zeroQuad
    return 0
  | .clearBoth =>
    putRegister .a zeroQuad
    putRegister .b zeroQuad
    return 0
  | .copyInto r =>
    putRegister r (← getRegister r.other)
    return 0
  | .isZero r => return truth ((← getRegister r) == zeroQuad)
  | .equal => return truth ((← getRegister .a) == (← getRegister .b))
  | .swap =>
    let a ← getRegister .a
    let b ← getRegister .b
    putRegister .a b
    putRegister .b a
    return 0
  | .combine op r =>
    let mine ← getRegister r
    let others ← getRegister r.other
    putRegister r (mine.zipWith op.apply others)
    return 0
  | .storeRegister r =>
    storeQuad (← argument args 0) (← getRegister r)
    return 0
  | .loadRegister r =>
    putRegister r (← loadQuad (← argument args 0))
    return 0
  | .blockTimestamp => return timestamp view.height 0
  | .creationTimestamp => return (← get).created
  | .previousBlockTimestamp => return timestamp (UInt32.ofNat (view.height.toNat - 1)) 0
  | .findTxAfter =>
    putRegister .a (searchResult view (← argument args 0))
    return 0
  | .txKind => fromTx view (·.kind.word)
  | .txAmount => fromTx view (·.amount)
  | .txTimestamp => fromTx view (·.timestamp)
  | .txSender =>
    putRegister .b ((txInA? view (← get)).elim zeroQuad (·.sender.toWords))
    return 0
  | .creator =>
    putRegister .b (← get).creator.toWords
    return 0
  | .currentBalance => return (← get).balance
  | .previousBalance => return (← get).balance
  | .pay =>
    let recipient ← addressInB
    pay view recipient (← argument args 0)
    return 0
  | .payAll =>
    let recipient ← addressInB
    pay view recipient (← get).balance
    return 0
  | .payPrevious =>
    let recipient ← addressInB
    pay view recipient (← get).balance
    return 0
  | .addMinutes => movedTimestamp (← argument args 0) (← argument args 1)
  | .hash _ => fault (.unsupported f)
  | .checkHash _ => fault (.unsupported f)
  | .previousBlockHash => fault (.unsupported f)
  | .txRandom => fault (.unsupported f)
  | .txMessage => fault (.unsupported f)
  | .sendMessage => fault (.unsupported f)

end Exec

end Pledge
