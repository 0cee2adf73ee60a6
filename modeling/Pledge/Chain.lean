-- A chain that hosts one machine. Transfers are queued, a block takes them
-- all, and the machine runs in each block in which it is awake.
import Pledge.Container
import Pledge.Machine.Step

namespace Pledge

/-- The machine of a container, as it is deployed. -/
def Machine.deploy (c : Container) (creator : Address) (created balance : Word) : Machine where
  code := c.code.toArray
  data := Wire.wordsOf c.data
  a := Exec.zeroQuad
  b := Exec.zeroQuad
  pc := 0
  restart := 0
  handler := none
  callStack := []
  userStack := []
  status := .ready
  creator := creator
  created := created
  balance := balance
  payments := #[]

/-- A chain with one machine. -/
structure Chain where
  height : UInt32
  /-- Transfers that wait for the next block. -/
  pending : Array Transfer
  /-- Transactions received, oldest first. The deployment is one of them. -/
  txs : Array Tx
  machine : Machine
  deriving DecidableEq, Repr

namespace Chain

/-- Deploys a container at a height, with money from its creator. -/
def deploy (c : Container) (creator : Address) (funding : Word) (height : UInt32) : Chain where
  height := height
  pending := #[]
  txs := #[{
    kind := .payment
    sender := creator
    amount := funding
    timestamp := timestamp height 0 }]
  machine := Machine.deploy c creator (timestamp height 0) funding

def queue (c : Chain) (t : Transfer) : Chain := { c with pending := c.pending.push t }

def pay (c : Chain) (sender : Address) (amount : Word) : Chain :=
  c.queue ⟨.payment, sender, amount⟩

def message (c : Chain) (sender : Address) (amount : Word) : Chain :=
  c.queue ⟨.message, sender, amount⟩

/-- Takes transfers into a block. The first one has number `index + 1`; number 0 is for a
deployment. -/
def receive (height : UInt32) (balance : Word) (txs : Array Tx) (index : Nat) :
    List Transfer → Except Abort (Word × Array Tx)
  | [] => .ok (balance, txs)
  | t :: rest =>
    if index + 1 < 0x100000000 then
      match Word.addExact? balance t.amount with
      | some balance =>
        let tx : Tx := { t with timestamp := timestamp height (UInt32.ofNat (index + 1)) }
        receive height balance (txs.push tx) (index + 1) rest
      | none => .error .balanceOverflow
    else .error .sequenceOverflow

/-- Mines a block: takes the queued transfers, then runs the machine if it is awake. -/
def mine (c : Chain) : Except Abort Chain := do
  if 0x100000000 ≤ c.height.toNat + 1 then throw .heightOverflow
  let height := c.height + 1
  let (balance, txs) ← receive height c.machine.balance c.txs 0 c.pending.toList
  let machine := { c.machine with balance := balance }
  let machine ← if machine.awakeAt height then machine.run ⟨height, txs⟩ else pure machine
  return { height := height, pending := #[], txs := txs, machine := machine }

def mineTimes : Nat → Chain → Except Abort Chain
  | 0, c => .ok c
  | n + 1, c =>
    match c.mine with
    | .ok c => mineTimes n c
    | .error a => .error a

/-- Mines until the machine is done, but at most a number of blocks. -/
def mineUntilDone : Nat → Chain → Except Abort Chain
  | 0, c => .ok c
  | n + 1, c =>
    match c.mine with
    | .ok c => if c.machine.isDone then .ok c else mineUntilDone n c
    | .error a => .error a

/-- All that was paid to an address. -/
def paidTo (c : Chain) (who : Address) : Except Abort Word :=
  c.machine.payments.foldlM (fun total p =>
    if p.recipient = who then
      match Word.addExact? total p.amount with
      | some total => .ok total
      | none => .error .totalOverflow
    else .ok total) 0

def slot (c : Chain) (index : UInt32) : Except Abort Word :=
  match c.machine.data[index.toNat]? with
  | some w => .ok w
  | none => .error .noSuchSlot

end Chain

end Pledge
