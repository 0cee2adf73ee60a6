-- What an instruction can do to a machine, whatever the program. It makes
-- changes to the data, the registers, the user stack and the money, and then
-- ends in one of a few ways. A law of all programs is a law of each change
-- and of each end.
import Mathlib.Logic.Relation
import Pledge.Machine.Step
import Pledge.Proofs.Decoding
import Pledge.Proofs.Execution

namespace Pledge

open Relation

/-! ## Changes -/

/-- An elementary change of a machine that runs. -/
inductive Change (view : View) : Machine → Machine → Prop
  | data (m : Machine) (slot : Nat) (w : Word) (h : slot < m.data.size) :
      Change view m { m with data := m.data.set slot w h }
  | register (m : Machine) (r : Register) (q : Quad) : Change view m (m.setRegister r q)
  | userStack (m : Machine) (s : List Word) : Change view m { m with userStack := s }
  | pay {m m' : Machine} {recipient : Address} {amount : Word}
      (h : m.pay view.height recipient amount = .ok m') : Change view m m'

/-- One machine comes from another by elementary changes. -/
abbrev Changes (view : View) : Machine → Machine → Prop := ReflTransGen (Change view)

/-- Two machines have the same code, as many data, and stand at the same place in the program. -/
structure SamePlace (m m' : Machine) : Prop where
  code : m'.code = m.code
  size : m'.data.size = m.data.size
  pc : m'.pc = m.pc
  restart : m'.restart = m.restart
  handler : m'.handler = m.handler
  callStack : m'.callStack = m.callStack

/-- A payment that was made had the balance behind it. -/
theorem pay_eq_ok {height : UInt32} {recipient : Address} {amount : Word} {m m' : Machine}
    (h : m.pay height recipient amount = .ok m') :
    0 ≤ m.balance.toInt ∧
      ((Machine.payable m.balance amount = 0 ∧ m' = m) ∨
        (Machine.payable m.balance amount ≠ 0 ∧
          m' = { m with
            balance := m.balance - Machine.payable m.balance amount
            payments := m.payments.push
              ⟨recipient, Machine.payable m.balance amount, height⟩ })) := by
  unfold Machine.pay at h
  split at h
  · cases h
  · rename_i hneg
    rw [Int64.lt_iff_toInt_lt, Int64.toInt_zero] at hneg
    refine ⟨by omega, ?_⟩
    simp only at h
    split at h
    · cases h
      exact .inl ⟨‹_›, rfl⟩
    · cases h
      exact .inr ⟨‹_›, rfl⟩

/-- A payment fails only on a debt. -/
theorem pay_eq_error {height : UInt32} {recipient : Address} {amount : Word} {m : Machine}
    {a : Abort} (h : m.pay height recipient amount = .error a) :
    a = .negativeBalance ∧ m.balance < 0 := by
  unfold Machine.pay at h
  split at h
  · cases h
    exact ⟨rfl, ‹_›⟩
  · simp only at h
    split at h <;> cases h

theorem samePlace_change {view : View} {m m' : Machine} (h : Change view m m') :
    SamePlace m m' := by
  cases h with
  | data slot w hs => exact ⟨rfl, Array.size_set hs, rfl, rfl, rfl, rfl⟩
  | register r q => cases r <;> exact ⟨rfl, rfl, rfl, rfl, rfl, rfl⟩
  | userStack s => exact ⟨rfl, rfl, rfl, rfl, rfl, rfl⟩
  | pay hp =>
    obtain ⟨_, ⟨_, rfl⟩ | ⟨_, rfl⟩⟩ := pay_eq_ok hp
    · exact ⟨rfl, rfl, rfl, rfl, rfl, rfl⟩
    · exact ⟨rfl, rfl, rfl, rfl, rfl, rfl⟩

theorem samePlace_changes {view : View} {m m' : Machine} (h : Changes view m m') :
    SamePlace m m' := by
  induction h with
  | refl => exact ⟨rfl, rfl, rfl, rfl, rfl, rfl⟩
  | tail _ hc ih =>
    have h := samePlace_change hc
    exact ⟨h.code.trans ih.code, h.size.trans ih.size, h.pc.trans ih.pc,
      h.restart.trans ih.restart, h.handler.trans ih.handler, h.callStack.trans ih.callStack⟩

/-! ## Actions that only make changes -/

/-- Why such an action fails. A fault is not one of the code. An abort needs a debt, or more data
than there are slots. -/
inductive Trouble (m : Machine) : Halt → Prop
  | fault (f : Fault) (h : ∀ reason, f ≠ .code reason) : Trouble m (.fault f)
  | debt (h : m.balance < 0) : Trouble m (.abort .negativeBalance)
  | overlong (h : 0x100000000 ≤ m.data.size) : Trouble m (.abort .slotOverflow)

/-- An action on a machine has only made changes. -/
inductive Quiet (view : View) (m : Machine) {α : Type} : EStateM.Result Halt Machine α → Prop
  | ok {a : α} {m' : Machine} (h : Changes view m m') : Quiet view m (.ok a m')
  | error {e : Halt} {m' : Machine} (h : Changes view m m') (he : Trouble m' e) :
      Quiet view m (.error e m')

namespace Exec

theorem load_eq_ok {slot : Nat} {w : Word} {m m' : Machine} :
    load slot m = .ok w m' ↔ m.data[slot]? = some w ∧ m' = m := by
  unfold load
  cases m.data[slot]? with
  | none => simp
  | some w' => simp [eq_comm]

theorem store_eq_ok {slot : Nat} {w : Word} {m m' : Machine} (h : store slot w m = .ok () m') :
    slot < m.data.size ∧ m'.data.size = m.data.size := by
  unfold store at h
  split at h
  · rename_i hs
    cases h
    exact ⟨hs, Array.size_set hs⟩
  · cases h

theorem slotAfter_eq_ok {slot distance s : Nat} {m m' : Machine}
    (h : slotAfter slot distance m = .ok s m') : s = slot + distance ∧ m' = m := by
  unfold slotAfter at h
  split at h
  · cases h
    exact ⟨rfl, rfl⟩
  · cases h

end Exec

namespace Quiet

variable {view : View} {m : Machine} {α β : Type}

/-- More changes in front. -/
theorem after {m₁ : Machine} {r : EStateM.Result Halt Machine α} (h : Quiet view m₁ r)
    (hc : Changes view m m₁) : Quiet view m r := by
  cases h with
  | ok hc' => exact .ok (hc.trans hc')
  | error hc' he => exact .error (hc.trans hc') he

theorem bind {x : Exec α} {f : α → Exec β} (hx : Quiet view m (x m))
    (hf : ∀ a m', x m = .ok a m' → Quiet view m' (f a m')) : Quiet view m ((x >>= f) m) := by
  cases hr : x m with
  | ok a m₁ =>
    rw [hr] at hx
    rw [Exec.bind_of_ok hr]
    cases hx with
    | ok hc => exact (hf a m₁ hr).after hc
  | error e m₁ =>
    rw [hr] at hx
    rw [Exec.bind_of_error hr]
    cases hx with
    | error hc he => exact .error hc he

theorem pure (a : α) : Quiet view m ((Pure.pure a : Exec α) m) := .ok .refl

theorem fault {f : Fault} (h : ∀ reason, f ≠ .code reason) :
    Quiet view m ((Exec.fault f : Exec α) m) := .error .refl (.fault f h)

theorem get : Quiet view m ((MonadState.get : Exec Machine) m) := .ok .refl

theorem orFault (x : Option α) {f : Fault} (h : ∀ reason, f ≠ .code reason) :
    Quiet view m (Exec.orFault x f m) := by
  cases x with
  | none => exact fault h
  | some a => exact pure a

/-! ### Data, registers and stacks -/

theorem load (slot : Nat) : Quiet view m (Exec.load slot m) := by
  unfold Exec.load
  split
  · exact .ok .refl
  · exact .error .refl (.fault _ (by simp))

theorem store (slot : Nat) (w : Word) : Quiet view m (Exec.store slot w m) := by
  unfold Exec.store
  split
  · exact .ok (.single (.data m slot w ‹_›))
  · exact .error .refl (.fault _ (by simp))

theorem slotOf (w : Word) : Quiet view m (Exec.slotOf w m) := by
  unfold Exec.slotOf
  cases Word.toUInt32? w with
  | none => exact fault (by simp)
  | some n => exact pure _

/-- A slot that is not far behind the data can be counted, unless there are too many of them. -/
theorem slotAfter {slot distance : Nat} (h : slot + distance ≤ m.data.size) :
    Quiet view m (Exec.slotAfter slot distance m) := by
  unfold Exec.slotAfter
  split
  · exact pure _
  · exact .error .refl (.overlong (by omega))

/-- A word behind one that is there. -/
theorem loadAfter {slot distance : Nat} (h : slot + distance ≤ m.data.size)
    {f : Word → Exec α} (hf : ∀ w, slot + distance < m.data.size → Quiet view m (f w m)) :
    Quiet view m ((do f (← Exec.load (← Exec.slotAfter slot distance))) m) := by
  refine bind (slotAfter h) fun s m₁ hs => ?_
  obtain ⟨rfl, rfl⟩ := Exec.slotAfter_eq_ok hs
  refine bind (load _) fun w m₂ hw => ?_
  obtain ⟨hget, rfl⟩ := Exec.load_eq_ok.mp hw
  exact hf w (Array.getElem?_eq_some_iff.mp hget).1

theorem loadQuad (w : Word) : Quiet view m (Exec.loadQuad w m) := by
  refine bind (slotOf w) fun slot m _ => bind (load slot) fun w₀ m₁ hw => ?_
  obtain ⟨hget, rfl⟩ := Exec.load_eq_ok.mp hw
  have h₀ := (Array.getElem?_eq_some_iff.mp hget).1
  refine loadAfter (by omega) fun w₁ h₁ => ?_
  refine loadAfter (by omega) fun w₂ h₂ => ?_
  exact loadAfter (by omega) fun w₃ _ => pure _

/-- Puts a word behind one that is there. -/
theorem storeAfter {slot distance : Nat} {w : Word} (h : slot + distance ≤ m.data.size)
    {x : Exec α} (hx : ∀ m' : Machine, slot + distance < m'.data.size → Quiet view m' (x m')) :
    Quiet view m ((do Exec.store (← Exec.slotAfter slot distance) w; x) m) := by
  refine bind (slotAfter h) fun s m₁ hs => ?_
  obtain ⟨rfl, rfl⟩ := Exec.slotAfter_eq_ok hs
  refine bind (store _ w) fun _ m₂ hw => ?_
  obtain ⟨hlt, hsize⟩ := Exec.store_eq_ok hw
  exact hx m₂ (by omega)

theorem storeQuad (w : Word) (q : Quad) : Quiet view m (Exec.storeQuad w q m) := by
  refine bind (slotOf w) fun slot m _ => bind (store slot _) fun _ m₁ hw => ?_
  obtain ⟨hlt, hsize⟩ := Exec.store_eq_ok hw
  refine storeAfter (by omega) fun m₂ h₂ => ?_
  refine storeAfter (by omega) fun m₃ h₃ => ?_
  exact bind (slotAfter (by omega)) fun s _ _ => store s _

theorem update (slot : Nat) (op : BinaryOp) (rhs : Word) :
    Quiet view m (Exec.update slot op rhs m) := by
  refine bind (load slot) fun lhs _ _ => ?_
  cases op.apply lhs rhs with
  | none => exact fault (by simp)
  | some w => exact store slot w

theorem getRegister (r : Register) : Quiet view m (Exec.getRegister r m) := .ok .refl

theorem putRegister (r : Register) (q : Quad) : Quiet view m (Exec.putRegister r q m) :=
  .ok (.single (.register m r q))

theorem putWord (r : Register) (i : Fin 4) (w : Word) : Quiet view m (Exec.putWord r i w m) :=
  .ok (.single (.register m r _))

theorem pushUser (w : Word) : Quiet view m (Exec.pushUser w m) :=
  .ok (.single (.userStack m _))

theorem popUser : Quiet view m (Exec.popUser m) := by
  unfold Exec.popUser
  split
  · exact .ok (.single (.userStack m _))
  · exact .error .refl (.fault _ (by simp))

/-- Money is the one thing that an action and the chain share. -/
theorem pay (recipient : Address) (amount : Word) :
    Quiet view m (Exec.pay view recipient amount m) := by
  unfold Exec.pay
  split
  · exact .ok (.single (.pay ‹_›))
  · rename_i a ha
    obtain ⟨rfl, hdebt⟩ := pay_eq_error ha
    exact .error .refl (.debt hdebt)

/-! ### Calls -/

theorem argument (args : List Word) (i : Nat) : Quiet view m (Exec.argument args i m) :=
  orFault _ (by simp)

theorem fromTx (field : Tx → Word) : Quiet view m (Exec.fromTx view field m) := .ok .refl

theorem addressInB : Quiet view m (Exec.addressInB m) := by
  unfold Exec.addressInB
  split
  · exact .ok .refl
  · exact .error .refl (.fault _ (by simp))

theorem movedTimestamp {t minutes : Word}
    (h : Word.Fits (t.toInt / 0x100000000 + minutes.toInt)) :
    Quiet view m (Exec.movedTimestamp t minutes m) := by
  simp only [Exec.movedTimestamp, if_pos h]
  split
  · exact pure _
  · exact fault (by simp)

/-- Both calls that pay the whole balance. -/
theorem payBalance :
    Quiet view m ((do
      let recipient ← Exec.addressInB
      Exec.pay view recipient (← MonadState.get).balance
      return (0 : Word)) m) :=
  bind addressInB fun _ _ _ => bind get fun _ _ _ => bind (pay _ _) fun _ _ _ => pure _

/-- A call only makes changes, unless it moves a timestamp so far that no word holds the height. -/
theorem call {f : Function} {args : List Word}
    (h : ∀ t minutes rest, f = .addMinutes → args = t :: minutes :: rest →
      Word.Fits (t.toInt / 0x100000000 + minutes.toInt)) :
    Quiet view m (Exec.call view f args m) := by
  cases f with
  | getWord r i => exact bind (getRegister r) fun _ _ _ => pure _
  | setWord r i =>
    exact bind (argument _ _) fun _ _ _ => bind (putWord _ _ _) fun _ _ _ => pure _
  | setPair r half =>
    exact bind (argument _ _) fun _ _ _ => bind (putWord _ _ _) fun _ _ _ =>
      bind (argument _ _) fun _ _ _ => bind (putWord _ _ _) fun _ _ _ => pure _
  | clear r => exact bind (putRegister _ _) fun _ _ _ => pure _
  | clearBoth =>
    exact bind (putRegister _ _) fun _ _ _ => bind (putRegister _ _) fun _ _ _ => pure _
  | copyInto r =>
    exact bind (getRegister _) fun _ _ _ => bind (putRegister _ _) fun _ _ _ => pure _
  | isZero r => exact bind (getRegister r) fun _ _ _ => pure _
  | equal => exact bind (getRegister _) fun _ _ _ => bind (getRegister _) fun _ _ _ => pure _
  | swap =>
    exact bind (getRegister _) fun _ _ _ => bind (getRegister _) fun _ _ _ =>
      bind (putRegister _ _) fun _ _ _ => bind (putRegister _ _) fun _ _ _ => pure _
  | combine op r =>
    exact bind (getRegister _) fun _ _ _ => bind (getRegister _) fun _ _ _ =>
      bind (putRegister _ _) fun _ _ _ => pure _
  | storeRegister r =>
    exact bind (argument _ _) fun _ _ _ => bind (getRegister _) fun _ _ _ =>
      bind (storeQuad _ _) fun _ _ _ => pure _
  | loadRegister r =>
    exact bind (argument _ _) fun _ _ _ => bind (loadQuad _) fun _ _ _ =>
      bind (putRegister _ _) fun _ _ _ => pure _
  | blockTimestamp => exact pure _
  | creationTimestamp => exact bind get fun _ _ _ => pure _
  | previousBlockTimestamp => exact pure _
  | findTxAfter =>
    exact bind (argument _ _) fun _ _ _ => bind (putRegister _ _) fun _ _ _ => pure _
  | txKind => exact fromTx _
  | txAmount => exact fromTx _
  | txTimestamp => exact fromTx _
  | txSender => exact bind get fun _ _ _ => bind (putRegister _ _) fun _ _ _ => pure _
  | creator => exact bind get fun _ _ _ => bind (putRegister _ _) fun _ _ _ => pure _
  | currentBalance => exact bind get fun _ _ _ => pure _
  | previousBalance => exact bind get fun _ _ _ => pure _
  | pay =>
    exact bind addressInB fun _ _ _ => bind (argument _ _) fun _ _ _ =>
      bind (pay _ _) fun _ _ _ => pure _
  | payAll => exact payBalance
  | payPrevious => exact payBalance
  | addMinutes =>
    rcases args with _ | ⟨t, _ | ⟨minutes, rest⟩⟩
    · exact fault (by simp)
    · exact fault (by simp)
    · exact movedTimestamp (h t minutes rest rfl rfl)
  | hash _ => exact fault (by simp)
  | checkHash _ => exact fault (by simp)
  | previousBlockHash => exact fault (by simp)
  | txRandom => exact fault (by simp)
  | txMessage => exact fault (by simp)
  | sendMessage => exact fault (by simp)

theorem argumentWords (args : Arguments) : Quiet view m (Exec.argumentWords args m) := by
  cases args with
  | none => exact pure _
  | one arg => exact bind (load _) fun _ _ _ => pure _
  | two arg₁ arg₂ => exact bind (load _) fun _ _ _ => bind (load _) fun _ _ _ => pure _

end Quiet

/-! ## Instructions that overflow -/

/-- The instruction calls for a timestamp to be moved, with two slots as arguments. -/
inductive Instr.AddsMinutes (x y : UInt32) : Instr → Prop
  | call : AddsMinutes x y (.call .addMinutes (.two x y))
  | callInto (dest : UInt32) : AddsMinutes x y (.callInto .addMinutes dest (.two x y))

/-- An instruction asks for a height that the node cannot count: it sleeps through the last block,
or moves a timestamp out of the range of words. -/
inductive Overflows (view : View) (m : Machine) : Instr → Abort → Prop
  | height (h : view.height.toNat = 0xffffffff) : Overflows view m .sleepBlock .heightOverflow
  | minutes {i : Instr} {x y : UInt32} {t minutes : Word} (hi : i.AddsMinutes x y)
      (ht : m.data[x.toNat]? = some t) (hm : m.data[y.toNat]? = some minutes)
      (h : ¬ Word.Fits (t.toInt / 0x100000000 + minutes.toInt)) :
      Overflows view m i .minutesOverflow

namespace Exec

/-- An instruction that overflows does nothing else. -/
theorem execute_of_overflows {view : View} {m : Machine} {i : Instr} {a : Abort}
    (h : Overflows view m i a) (position : Nat) :
    execute view position i m = .error (.abort a) m := by
  cases h with
  | height h =>
    have hlast : ¬ view.height.toNat + 1 < 0x100000000 := by omega
    unfold execute
    rw [if_neg hlast]
    rfl
  | @minutes _ x y t minutes hi ht hm h =>
    have hmoved : movedTimestamp t minutes m = .error (.abort .minutesOverflow) m := by
      simp only [movedTimestamp, if_neg h]
      rfl
    have hcall : call view .addMinutes [t, minutes] m = .error (.abort .minutesOverflow) m := hmoved
    have hargs : argumentWords (.two x y) m = .ok [t, minutes] m := by
      refine bind_eq_ok.mpr ⟨t, m, load_eq_ok.mpr ⟨ht, rfl⟩, ?_⟩
      exact bind_eq_ok.mpr ⟨minutes, m, load_eq_ok.mpr ⟨hm, rfl⟩, rfl⟩
    cases hi with
    | call => exact execute_call_of_error hargs hcall
    | callInto dest => exact execute_callInto_of_error hargs hcall

/-- A call is given two words only by two slots that hold them. -/
theorem argumentWords_eq_ok {args : Arguments} {t k : Word} {rest : List Word} {m m' : Machine}
    (h : argumentWords args m = .ok (t :: k :: rest) m') :
    ∃ x y, args = .two x y ∧ m.data[x.toNat]? = some t ∧ m.data[y.toNat]? = some k := by
  cases args with
  | none => cases h
  | one arg =>
    obtain ⟨w, m₁, _, h⟩ := bind_eq_ok.mp h
    cases h
  | two x y =>
    obtain ⟨w, m₁, hx, h₁⟩ := bind_eq_ok.mp h
    obtain ⟨hget, rfl⟩ := load_eq_ok.mp hx
    obtain ⟨w', m₂, hy, h₂⟩ := bind_eq_ok.mp h₁
    obtain ⟨hget', rfl⟩ := load_eq_ok.mp hy
    cases h₂
    exact ⟨x, y, rfl, hget, hget'⟩

/-- If an instruction that moves a timestamp does not overflow, the words of its slots add up. -/
theorem fits_of_argumentWords {view : View} {m m' : Machine} {i : Instr} {f : Function}
    {args : Arguments} {ws : List Word} (h : ∀ a, ¬ Overflows view m i a)
    (hi : ∀ x y, f = .addMinutes → args = .two x y → i.AddsMinutes x y)
    (hws : argumentWords args m = .ok ws m') (t k : Word) (rest : List Word)
    (hf : f = .addMinutes) (hcons : ws = t :: k :: rest) :
    Word.Fits (t.toInt / 0x100000000 + k.toInt) := by
  rw [hcons] at hws
  obtain ⟨x, y, hargs, ht, hk⟩ := argumentWords_eq_ok hws
  by_contra hfit
  exact h _ (.minutes (hi x y hf hargs) ht hk hfit)

end Exec

/-! ## How an instruction ends -/

/-- The ends of an instruction at a position, once it has made its changes. -/
inductive Ends (position : Nat) (i : Instr) (m : Machine) :
    EStateM.Result Halt Machine Flow → Prop
  | next : Ends position i m (.ok .next { m with pc := position + i.size })
  | branch {target : Nat} (h : (i.raw position).branchTarget? = some target) :
      Ends position i m (.ok .next { m with pc := target })
  | jump {target : Nat} (h : (i.raw position).codeTarget? = some target) :
      Ends position i m (.ok .next { m with pc := target })
  | jumpSub {target : Nat} (h : (i.raw position).codeTarget? = some target) :
      Ends position i m (.ok .next { m with
        callStack := (position + i.size) :: m.callStack
        pc := target })
  | returnSub {target : Nat} {rest : List Nat} (h : m.callStack = target :: rest) :
      Ends position i m (.ok .next { m with callStack := rest, pc := target })
  | onFault {target : Nat} (h : (i.raw position).codeTarget? = some target) :
      Ends position i m (.ok .next { m with handler := some target, pc := position + i.size })
  | setRestart :
      Ends position i m (.ok .next { m with
        restart := position + i.size
        pc := position + i.size })
  | sleep (wake : UInt32) :
      Ends position i m (.ok (.sleep wake) { m with pc := position + i.size })
  | stop : Ends position i m (.ok .stop m)
  | finish : Ends position i m (.ok .finish m)
  | trouble {e : Halt} (h : Trouble m e) : Ends position i m (.error e m)

/-- The machine that an action leaves, whether it failed or not. -/
def leaves {α : Type} : EStateM.Result Halt Machine α → Machine
  | .ok _ m => m
  | .error _ m => m

/-- Two machines have the same data and the same money. -/
structure SameHoldings (m m' : Machine) : Prop where
  data : m'.data = m.data
  balance : m'.balance = m.balance
  payments : m'.payments = m.payments

theorem sameHoldings_end {position : Nat} {i : Instr} {m : Machine}
    {r : EStateM.Result Halt Machine Flow} (h : Ends position i m r) :
    SameHoldings m (leaves r) := by
  cases h <;> exact ⟨rfl, rfl, rfl⟩

/-- An instruction has made changes and has come to an end. -/
def Concludes (view : View) (position : Nat) (i : Instr) (m : Machine)
    (r : EStateM.Result Halt Machine Flow) : Prop :=
  ∃ m₁, Changes view m m₁ ∧ Ends position i m₁ r

namespace Concludes

variable {view : View} {position : Nat} {i : Instr} {m : Machine} {α : Type}

theorem of_end {r : EStateM.Result Halt Machine Flow} (h : Ends position i m r) :
    Concludes view position i m r := ⟨m, .refl, h⟩

theorem bind {x : Exec α} {f : α → Exec Flow} (hx : Quiet view m (x m))
    (hf : ∀ a m', x m = .ok a m' → Concludes view position i m' (f a m')) :
    Concludes view position i m ((x >>= f) m) := by
  cases hr : x m with
  | ok a m₁ =>
    rw [hr] at hx
    rw [Exec.bind_of_ok hr]
    cases hx with
    | ok hc =>
      obtain ⟨m₂, hc', he⟩ := hf a m₁ hr
      exact ⟨m₂, hc.trans hc', he⟩
  | error e m₁ =>
    rw [hr] at hx
    rw [Exec.bind_of_error hr]
    cases hx with
    | error hc he => exact ⟨m₁, hc, .trouble he⟩

theorem fault {f : Fault} (h : ∀ reason, f ≠ .code reason) :
    Concludes view position i m (Exec.fault f m) := of_end (.trouble (.fault f h))

theorem next : Concludes view position i m (Exec.goto (position + i.size) m) := of_end .next

/-- A branch goes where the decoded instruction tells. -/
theorem branchIf {condition : Bool} {offset : Int8}
    (h : (i.raw position).branchTarget? = positionAfter? position offset.toInt) :
    Concludes view position i m
      (Exec.branchIf condition position (position + i.size) offset m) := by
  unfold Exec.branchIf
  split
  · cases ht : positionAfter? position offset.toInt with
    | none => exact fault (by simp)
    | some target => exact of_end (.branch (h.trans ht))
  · exact next

theorem sleepAt (wake : UInt32) :
    Concludes view position i m (Exec.sleepAt (position + i.size) wake m) := of_end (.sleep wake)

/-- Both ends that depend on a word. -/
theorem ifZero {w : Word} {flow : Flow} (h : Ends position i m (.ok flow m)) :
    Concludes view position i m
      ((if w == 0 then return flow else Exec.goto (position + i.size) : Exec Flow) m) := by
  split
  · exact of_end h
  · exact next

/-- A value is found by an action, and stored. -/
theorem storeResult {x : Exec Word} (hx : Quiet view m (x m)) (dest : Nat) :
    Concludes view position i m ((do
      Exec.store dest (← x)
      Exec.goto (position + i.size)) m) :=
  bind hx fun _ _ _ => bind (.store _ _) fun _ _ _ => next

/-- The top of the call stack is left, if there is one. -/
theorem returnSub : Concludes view position i m ((Exec.popCall >>= Exec.goto) m) := by
  cases hs : m.callStack with
  | nil =>
    have hpop : Exec.popCall m = .error (.fault .callStackUnderflow) m := by
      simp [Exec.popCall, hs]
    rw [Exec.bind_of_error hpop]
    exact of_end (.trouble (.fault _ (by simp)))
  | cons target rest =>
    have hpop : Exec.popCall m = .ok target { m with callStack := rest } := by
      simp [Exec.popCall, hs]
    rw [Exec.bind_of_ok hpop]
    exact of_end (.returnSub hs)

/-- An instruction that does not overflow makes changes and comes to an end. -/
theorem execute (h : ∀ a, ¬ Overflows view m i a) (position : Nat) :
    Concludes view position i m (Exec.execute view position i m) := by
  cases i with
  | nop => exact next
  | setValue dest value => exact bind (.store _ _) fun _ _ _ => next
  | copy dest src => exact storeResult (.load _) _
  | clear dest => exact bind (.store _ _) fun _ _ _ => next
  | unary op dest => exact bind (.load _) fun _ _ _ => bind (.store _ _) fun _ _ _ => next
  | binary op dest src =>
    exact bind (.load _) fun _ _ _ => bind (.update _ _ _) fun _ _ _ => next
  | immediate op dest value => exact bind (.update _ _ _) fun _ _ _ => next
  | loadIndirect dest ptr =>
    exact bind (.load _) fun _ _ _ => bind (.slotOf _) fun _ _ _ => storeResult (.load _) _
  | loadIndexed dest base index =>
    exact bind (.load _) fun _ _ _ => bind (.load _) fun _ _ _ => bind (.slotOf _) fun _ _ _ =>
      storeResult (.load _) _
  | storeIndirect ptr src =>
    exact bind (.load _) fun _ _ _ => bind (.slotOf _) fun _ _ _ => storeResult (.load _) _
  | storeIndexed base index src =>
    exact bind (.load _) fun _ _ _ => bind (.load _) fun _ _ _ => bind (.slotOf _) fun _ _ _ =>
      storeResult (.load _) _
  | push src => exact bind (.load _) fun _ _ _ => bind (.pushUser _) fun _ _ _ => next
  | pop dest => exact storeResult .popUser _
  | jumpSub target => exact of_end (.jumpSub rfl)
  | returnSub => exact returnSub
  | jump target => exact of_end (.jump rfl)
  | branchZero src offset =>
    exact bind (.load _) fun _ _ _ => branchIf
      (by simp [Instr.raw, InstrWith.operands, RawInstr.branchTarget?])
  | branchNonzero src offset =>
    exact bind (.load _) fun _ _ _ => branchIf
      (by simp [Instr.raw, InstrWith.operands, RawInstr.branchTarget?])
  | branch cmp left right offset =>
    exact bind (.load _) fun _ _ _ => bind (.load _) fun _ _ _ => branchIf
      (by simp [Instr.raw, InstrWith.operands, RawInstr.branchTarget?])
  | sleepUntil height =>
    exact bind (.load _) fun _ _ _ => bind (.orFault _ (by simp)) fun _ _ _ => sleepAt _
  | sleepBlock =>
    have hlt := view.height.toNat_lt
    have hmore : view.height.toNat + 1 < 0x100000000 := by
      by_contra hlast
      exact h _ (.height (by omega))
    unfold Exec.execute
    rw [if_pos hmore]
    exact sleepAt _
  | sleepFor blocks => exact bind (.orFault _ (by simp)) fun _ _ _ => sleepAt _
  | finishIfZero src => exact bind (.load _) fun _ _ _ => ifZero .finish
  | stopIfZero src => exact bind (.load _) fun _ _ _ => ifZero .stop
  | finish => exact of_end .finish
  | stop => exact of_end .stop
  | onFault target => exact of_end (.onFault rfl)
  | setRestart => exact of_end .setRestart
  | call f args =>
    refine bind (.argumentWords _) fun ws m' hws =>
      bind (.call (Exec.fits_of_argumentWords h ?_ hws)) fun _ _ _ => next
    rintro x y rfl rfl
    exact .call
  | callValue f value =>
    refine bind (.call ?_) fun _ _ _ => next
    intro _ _ _ _ hcons
    cases hcons
  | callInto f dest args =>
    refine bind (.argumentWords _) fun ws m' hws =>
      storeResult (.call (Exec.fits_of_argumentWords h ?_ hws)) _
    rintro x y rfl rfl
    exact .callInto dest

end Concludes

namespace Exec

/-- All that the next instruction can do: there is none, it overflows, or it concludes. -/
theorem step_cases (view : View) (m : Machine) :
    (∃ reason, Instr.fetch m.code m.pc = .error reason ∧
      step view m = .error (.fault (.code reason)) m) ∨
    ∃ i, Instr.fetch m.code m.pc = .ok i ∧
      ((∃ a, Overflows view m i a ∧ step view m = .error (.abort a) m) ∨
        (∀ a, ¬ Overflows view m i a) ∧ Concludes view m.pc i m (step view m)) := by
  unfold step
  cases hfetch : Instr.fetch m.code m.pc with
  | error reason => exact .inl ⟨reason, rfl, rfl⟩
  | ok i =>
    refine .inr ⟨i, rfl, ?_⟩
    by_cases ho : ∃ a, Overflows view m i a
    · obtain ⟨a, ha⟩ := ho
      exact .inl ⟨a, ha, execute_of_overflows ha m.pc⟩
    · have hnone : ∀ a, ¬ Overflows view m i a := fun a ha => ho ⟨a, ha⟩
      exact .inr ⟨hnone, Concludes.execute hnone m.pc⟩

/-- What is held changes by elementary changes only. -/
theorem leaves_step (view : View) (m : Machine) :
    ∃ m₁, Changes view m m₁ ∧ SameHoldings m₁ (leaves (step view m)) := by
  rcases step_cases view m with ⟨_, _, hs⟩ | ⟨i, _, ⟨_, _, hs⟩ | ⟨_, m₁, hc, he⟩⟩
  · rw [hs]
    exact ⟨m, .refl, rfl, rfl, rfl⟩
  · rw [hs]
    exact ⟨m, .refl, rfl, rfl, rfl⟩
  · exact ⟨m₁, hc, sameHoldings_end he⟩

end Exec

end Pledge
