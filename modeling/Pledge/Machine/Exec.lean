-- Actions of a machine. An action changes the machine and may fail; what it
-- changed before it failed stays changed.
import Pledge.Machine.Arithmetic
import Pledge.Machine.State

namespace Pledge

/-- Why an action fails. -/
inductive Halt where
  | fault (f : Fault)
  | abort (a : Abort)
  deriving DecidableEq, Repr

abbrev Exec := EStateM Halt Machine

namespace Exec

def fault {α : Type} (f : Fault) : Exec α := throw (.fault f)

def abort {α : Type} (a : Abort) : Exec α := throw (.abort a)

/-- The value of an option, or a fault. -/
def orFault {α : Type} (x : Option α) (f : Fault) : Exec α :=
  match x with
  | some a => pure a
  | none => fault f

/-! ## Data -/

def load (slot : Nat) : Exec Word := fun m =>
  match m.data[slot]? with
  | some w => .ok w m
  | none => .error (.fault (.slotOutOfBounds slot)) m

def store (slot : Nat) (w : Word) : Exec Unit := fun m =>
  if h : slot < m.data.size then .ok () { m with data := m.data.set slot w h }
  else .error (.fault (.slotOutOfBounds slot)) m

/-- The slot that a word names. -/
def slotOf (w : Word) : Exec Nat :=
  match Word.toUInt32? w with
  | some n => pure n.toNat
  | none => fault (.invalidSlotReference w)

/-- The slot at a distance behind another. Slots have 32 bits. -/
def slotAfter (slot distance : Nat) : Exec Nat :=
  if slot + distance < 0x100000000 then pure (slot + distance) else abort .slotOverflow

/-- Four words in a row, from the slot that a word names. -/
def loadQuad (w : Word) : Exec Quad := do
  let slot ← slotOf w
  let w0 ← load slot
  let w1 ← load (← slotAfter slot 1)
  let w2 ← load (← slotAfter slot 2)
  let w3 ← load (← slotAfter slot 3)
  return #v[w0, w1, w2, w3]

/-- Puts four words in a row, from the slot that a word names. -/
def storeQuad (w : Word) (q : Quad) : Exec Unit := do
  let slot ← slotOf w
  store slot q.first
  store (← slotAfter slot 1) q.second
  store (← slotAfter slot 2) q.third
  store (← slotAfter slot 3) q.fourth

/-- Changes the word in a slot by arithmetic with another word. -/
def update (slot : Nat) (op : BinaryOp) (rhs : Word) : Exec Unit := do
  let lhs ← load slot
  match op.apply lhs rhs with
  | some w => store slot w
  | none => fault .arithmetic

/-! ## Registers -/

def getRegister (r : Register) : Exec Quad := fun m => .ok (m.register r) m

def putRegister (r : Register) (q : Quad) : Exec Unit := fun m => .ok () (m.setRegister r q)

def putWord (r : Register) (i : Fin 4) (w : Word) : Exec Unit := fun m =>
  .ok () (m.setRegister r ((m.register r).set i w))

/-! ## Stacks -/

def pushUser (w : Word) : Exec Unit := fun m => .ok () { m with userStack := w :: m.userStack }

def popUser : Exec Word := fun m =>
  match m.userStack with
  | w :: rest => .ok w { m with userStack := rest }
  | [] => .error (.fault .userStackUnderflow) m

def pushCall (position : Nat) : Exec Unit := fun m =>
  .ok () { m with callStack := position :: m.callStack }

def popCall : Exec Nat := fun m =>
  match m.callStack with
  | position :: rest => .ok position { m with callStack := rest }
  | [] => .error (.fault .callStackUnderflow) m

/-! ## Money -/

/-- Pays an amount, or what there is of it. -/
def pay (view : View) (recipient : Address) (amount : Word) : Exec Unit := fun m =>
  match m.pay view.height recipient amount with
  | .ok m => .ok () m
  | .error a => .error (.abort a) m

end Exec

end Pledge
