-- What a fault leaves behind. Most instructions that fault have done nothing
-- yet. The few that have done a part of their work are listed here one by one,
-- and a fault never moves the machine in its program.
import Pledge.Proofs.Permanence

namespace Pledge

variable {view : View} {m m' : Machine} {α β : Type}

/-! ## All or nothing -/

/-- An action has only looked at the machine. -/
inductive Looked (m : Machine) : EStateM.Result Halt Machine α → Prop
  | ok (a : α) : Looked m (.ok a m)
  | error (e : Halt) : Looked m (.error e m)

/-- An action that faulted has done nothing. -/
def Whole (m : Machine) (r : EStateM.Result Halt Machine α) : Prop :=
  ∀ f m', r = .error (.fault f) m' → m' = m

/-- An action cannot fail. -/
def Sure (x : Exec α) : Prop := ∀ m, ∃ a m', x m = .ok a m'

namespace Looked

theorem bind {x : Exec α} {f : α → Exec β} (hx : Looked m (x m)) (hf : ∀ a, Looked m (f a m)) :
    Looked m ((x >>= f) m) := by
  generalize hr : x m = r at hx
  cases hx with
  | ok a =>
    rw [Exec.bind_of_ok hr]
    exact hf a
  | error e =>
    rw [Exec.bind_of_error hr]
    exact .error e

/-- A fault after a look, or in it. -/
theorem bind_eq_fault {x : Exec α} {f : α → Exec β} {e : Fault} (hx : Looked m (x m))
    (h : (x >>= f) m = .error (.fault e) m') :
    m' = m ∨ ∃ a, x m = .ok a m ∧ f a m = .error (.fault e) m' := by
  generalize hr : x m = r at hx
  cases hx with
  | ok a =>
    rw [Exec.bind_of_ok hr] at h
    exact .inr ⟨a, rfl, h⟩
  | error e' =>
    rw [Exec.bind_of_error hr] at h
    cases h
    exact .inl rfl

theorem load (slot : Nat) : Looked m (Exec.load slot m) := by
  unfold Exec.load
  split
  · exact .ok _
  · exact .error _

theorem orFault (x : Option α) (f : Fault) : Looked m (Exec.orFault x f m) := by
  cases x with
  | none => exact .error _
  | some a => exact .ok a

theorem slotOf (w : Word) : Looked m (Exec.slotOf w m) := by
  unfold Exec.slotOf
  cases Word.toUInt32? w with
  | none => exact .error _
  | some n => exact .ok _

theorem slotAfter (slot distance : Nat) : Looked m (Exec.slotAfter slot distance m) := by
  unfold Exec.slotAfter
  split
  · exact .ok _
  · exact .error _

theorem loadQuad (w : Word) : Looked m (Exec.loadQuad w m) := by
  apply bind (slotOf w)
  intro slot
  apply bind (load slot)
  intro w₀
  apply bind (slotAfter slot 1)
  intro slot₁
  apply bind (load slot₁)
  intro w₁
  apply bind (slotAfter slot 2)
  intro slot₂
  apply bind (load slot₂)
  intro w₂
  apply bind (slotAfter slot 3)
  intro slot₃
  apply bind (load slot₃)
  intro w₃
  exact .ok _

theorem argument (args : List Word) (i : Nat) : Looked m (Exec.argument args i m) :=
  orFault _ _

theorem addressInB : Looked m (Exec.addressInB m) := by
  unfold Exec.addressInB
  split
  · exact .ok _
  · exact .error _

theorem movedTimestamp (t minutes : Word) : Looked m (Exec.movedTimestamp t minutes m) := by
  unfold Exec.movedTimestamp
  split
  · split
    · exact .ok _
    · exact .error _
  · exact .error _

theorem argumentWords (args : Arguments) : Looked m (Exec.argumentWords args m) := by
  cases args with
  | none => exact .ok _
  | one arg => exact bind (load _) fun w => .ok _
  | two arg₁ arg₂ => exact bind (load _) fun w => bind (load _) fun w' => .ok _

end Looked

namespace Sure

theorem bind {x : Exec α} {f : α → Exec β} (hx : Sure x) (hf : ∀ a, Sure (f a)) :
    Sure (x >>= f) := by
  intro m
  obtain ⟨a, m₁, hok⟩ := hx m
  rw [Exec.bind_of_ok hok]
  exact hf a m₁

theorem pure (a : α) : Sure (Pure.pure a : Exec α) := fun m => ⟨a, m, rfl⟩

theorem get : Sure (MonadState.get : Exec Machine) := fun m => ⟨m, m, rfl⟩

theorem getRegister (r : Register) : Sure (Exec.getRegister r) := fun m => ⟨_, m, rfl⟩

theorem putRegister (r : Register) (q : Quad) : Sure (Exec.putRegister r q) :=
  fun _ => ⟨(), _, rfl⟩

theorem putWord (r : Register) (i : Fin 4) (w : Word) : Sure (Exec.putWord r i w) :=
  fun _ => ⟨(), _, rfl⟩

theorem fromTx (field : Tx → Word) : Sure (Exec.fromTx view field) := fun m => ⟨_, m, rfl⟩

theorem pushUser (w : Word) : Sure (Exec.pushUser w) := fun _ => ⟨(), _, rfl⟩

theorem pushCall (position : Nat) : Sure (Exec.pushCall position) := fun _ => ⟨(), _, rfl⟩

theorem modify (f : Machine → Machine) :
    Sure (MonadStateOf.modifyGet fun m => ((), f m) : Exec Unit) :=
  fun _ => ⟨(), _, rfl⟩

theorem goto (position : Nat) : Sure (Exec.goto position) := fun _ => ⟨.next, _, rfl⟩

theorem sleepAt (position : Nat) (wake : UInt32) : Sure (Exec.sleepAt position wake) :=
  fun _ => ⟨.sleep wake, _, rfl⟩

end Sure

namespace Whole

theorem of_looked {r : EStateM.Result Halt Machine α} (h : Looked m r) : Whole m r := by
  intro f m' hr
  cases h with
  | ok a => cases hr
  | error e =>
    cases hr
    rfl

theorem of_sure {x : Exec α} (h : Sure x) : Whole m (x m) := by
  intro f m' hr
  obtain ⟨a, m₁, hok⟩ := h m
  cases hr.symm.trans hok

/-- What comes after a look. -/
theorem bind {x : Exec α} {f : α → Exec β} (hx : Looked m (x m)) (hf : ∀ a, Whole m (f a m)) :
    Whole m ((x >>= f) m) := by
  intro e m' h
  rcases hx.bind_eq_fault h with rfl | ⟨a, _, he⟩
  · rfl
  · exact hf a e m' he

/-- What cannot fail may follow a change. -/
theorem before {x : Exec α} {f : α → Exec β} (hx : Whole m (x m)) (hf : ∀ a, Sure (f a)) :
    Whole m ((x >>= f) m) := by
  intro e m' h
  rcases Exec.bind_eq_error.mp h with he | ⟨a, m₁, _, he⟩
  · exact hx e m' he
  · obtain ⟨b, m₂, hok⟩ := hf a m₁
    cases he.symm.trans hok

/-! ### Calls -/

theorem store (slot : Nat) (w : Word) : Whole m (Exec.store slot w m) := by
  unfold Exec.store
  split
  · intro f m' h
    cases h
  · exact of_looked (.error _)

/-- A payment does not fault. -/
theorem pay (recipient : Address) (amount : Word) :
    Whole m (Exec.pay view recipient amount m) := by
  intro f m' h
  unfold Exec.pay at h
  split at h
  · cases h
  · cases h

theorem payBalance :
    Whole m ((do
      let recipient ← Exec.addressInB
      Exec.pay view recipient (← MonadState.get).balance
      return (0 : Word)) m) :=
  bind .addressInB fun _ => bind (.ok m) fun _ => before (pay _ _) fun _ => .pure _

/-- All calls but two kinds do all of their work or none. -/
theorem call {f : Function} {args : List Word} (hpair : ∀ r half, f ≠ .setPair r half)
    (hrow : ∀ r, f ≠ .storeRegister r) : Whole m (Exec.call view f args m) := by
  cases f with
  | getWord r i => exact of_sure (.bind (.getRegister r) fun _ => .pure _)
  | setWord r i =>
    exact bind (.argument _ _) fun _ => of_sure (.bind (.putWord _ _ _) fun _ => .pure _)
  | setPair r half => exact absurd rfl (hpair r half)
  | clear r => exact of_sure (.bind (.putRegister _ _) fun _ => .pure _)
  | clearBoth =>
    exact of_sure (.bind (.putRegister _ _) fun _ => .bind (.putRegister _ _) fun _ => .pure _)
  | copyInto r =>
    exact of_sure (.bind (.getRegister _) fun _ => .bind (.putRegister _ _) fun _ => .pure _)
  | isZero r => exact of_sure (.bind (.getRegister r) fun _ => .pure _)
  | equal => exact of_sure (.bind (.getRegister _) fun _ => .bind (.getRegister _) fun _ => .pure _)
  | swap =>
    exact of_sure (.bind (.getRegister _) fun _ => .bind (.getRegister _) fun _ =>
      .bind (.putRegister _ _) fun _ => .bind (.putRegister _ _) fun _ => .pure _)
  | combine op r =>
    exact of_sure (.bind (.getRegister _) fun _ => .bind (.getRegister _) fun _ =>
      .bind (.putRegister _ _) fun _ => .pure _)
  | storeRegister r => exact absurd rfl (hrow r)
  | loadRegister r =>
    exact bind (.argument _ _) fun _ => bind (.loadQuad _) fun _ =>
      of_sure (.bind (.putRegister _ _) fun _ => .pure _)
  | blockTimestamp => exact of_sure (.pure _)
  | creationTimestamp => exact of_sure (.bind .get fun _ => .pure _)
  | previousBlockTimestamp => exact of_sure (.pure _)
  | findTxAfter =>
    exact bind (.argument _ _) fun _ => of_sure (.bind (.putRegister _ _) fun _ => .pure _)
  | txKind => exact of_sure (.fromTx _)
  | txAmount => exact of_sure (.fromTx _)
  | txTimestamp => exact of_sure (.fromTx _)
  | txSender => exact of_sure (.bind .get fun _ => .bind (.putRegister _ _) fun _ => .pure _)
  | creator => exact of_sure (.bind .get fun _ => .bind (.putRegister _ _) fun _ => .pure _)
  | currentBalance => exact of_sure (.bind .get fun _ => .pure _)
  | previousBalance => exact of_sure (.bind .get fun _ => .pure _)
  | pay =>
    exact bind .addressInB fun _ => bind (.argument _ _) fun _ =>
      before (pay _ _) fun _ => .pure _
  | payAll => exact payBalance
  | payPrevious => exact payBalance
  | addMinutes =>
    exact bind (.argument _ _) fun _ => bind (.argument _ _) fun _ =>
      of_looked (.movedTimestamp _ _)
  | hash _ => exact of_looked (.error _)
  | checkHash _ => exact of_looked (.error _)
  | previousBlockHash => exact of_looked (.error _)
  | txRandom => exact of_looked (.error _)
  | txMessage => exact of_looked (.error _)
  | sendMessage => exact of_looked (.error _)

/-! ### Instructions -/

theorem update (slot : Nat) (op : BinaryOp) (rhs : Word) :
    Whole m (Exec.update slot op rhs m) := by
  apply bind (.load slot)
  intro lhs
  cases op.apply lhs rhs with
  | none => exact of_looked (.error _)
  | some w => exact store slot w

theorem branchIf (condition : Bool) (position next : Nat) (offset : Int8) :
    Whole m (Exec.branchIf condition position next offset m) := by
  unfold Exec.branchIf
  split
  · cases positionAfter? position offset.toInt with
    | none => exact of_looked (.error _)
    | some target => exact of_sure (.goto target)
  · exact of_sure (.goto next)

theorem popCall : Whole m (Exec.popCall m) := by
  unfold Exec.popCall
  split
  · intro f m' h
    cases h
  · exact of_looked (.error _)

theorem storeResult {x : Exec Word} (hx : Looked m (x m)) (dest next : Nat) :
    Whole m ((do
      Exec.store dest (← x)
      Exec.goto next) m) :=
  bind hx fun _ => before (store _ _) fun _ => .goto _

theorem ifZero (w : Word) (flow : Flow) (next : Nat) :
    Whole m ((if w == 0 then return flow else Exec.goto next : Exec Flow) m) := by
  split
  · exact of_sure (.pure _)
  · exact of_sure (.goto _)

/-- All instructions but the calls and the one that pops do all of their work or none. -/
theorem execute {i : Instr} (hpop : ∀ dest, i ≠ .pop dest) (hcall : ∀ f args, i ≠ .call f args)
    (hvalue : ∀ f value, i ≠ .callValue f value) (hinto : ∀ f dest args, i ≠ .callInto f dest args)
    (position : Nat) : Whole m (Exec.execute view position i m) := by
  cases i with
  | nop => exact of_sure (.goto _)
  | setValue dest value => exact before (store _ _) fun _ => .goto _
  | copy dest src => exact storeResult (.load _) _ _
  | clear dest => exact before (store _ _) fun _ => .goto _
  | unary op dest => exact bind (.load _) fun _ => before (store _ _) fun _ => .goto _
  | binary op dest src => exact bind (.load _) fun _ => before (update _ _ _) fun _ => .goto _
  | immediate op dest value => exact before (update _ _ _) fun _ => .goto _
  | loadIndirect dest ptr =>
    exact bind (.load _) fun _ => bind (.slotOf _) fun _ => storeResult (.load _) _ _
  | loadIndexed dest base index =>
    exact bind (.load _) fun _ => bind (.load _) fun _ => bind (.slotOf _) fun _ =>
      storeResult (.load _) _ _
  | storeIndirect ptr src =>
    exact bind (.load _) fun _ => bind (.slotOf _) fun _ => storeResult (.load _) _ _
  | storeIndexed base index src =>
    exact bind (.load _) fun _ => bind (.load _) fun _ => bind (.slotOf _) fun _ =>
      storeResult (.load _) _ _
  | push src => exact bind (.load _) fun _ => of_sure (.bind (.pushUser _) fun _ => .goto _)
  | pop dest => exact absurd rfl (hpop dest)
  | jumpSub target => exact of_sure (.bind (.pushCall _) fun _ => .goto _)
  | returnSub => exact before popCall fun _ => .goto _
  | jump target => exact of_sure (.goto _)
  | branchZero src offset => exact bind (.load _) fun _ => branchIf _ _ _ _
  | branchNonzero src offset => exact bind (.load _) fun _ => branchIf _ _ _ _
  | branch cmp left right offset =>
    exact bind (.load _) fun _ => bind (.load _) fun _ => branchIf _ _ _ _
  | sleepUntil height =>
    exact bind (.load _) fun _ => bind (.orFault _ _) fun _ => of_sure (.sleepAt _ _)
  | sleepBlock =>
    unfold Exec.execute
    split
    · exact of_sure (.sleepAt _ _)
    · exact of_looked (.error _)
  | sleepFor blocks => exact bind (.orFault _ _) fun _ => of_sure (.sleepAt _ _)
  | finishIfZero src => exact bind (.load _) fun _ => ifZero _ _ _
  | stopIfZero src => exact bind (.load _) fun _ => ifZero _ _ _
  | finish => exact of_sure (.pure _)
  | stop => exact of_sure (.pure _)
  | onFault target => exact of_sure (.bind (.modify _) fun _ => .goto _)
  | setRestart => exact of_sure (.bind (.modify _) fun _ => .goto _)
  | call f args => exact absurd rfl (hcall f args)
  | callValue f value => exact absurd rfl (hvalue f value)
  | callInto f dest args => exact absurd rfl (hinto f dest args)

end Whole

/-! ## Words in a row -/

/-- Words put over the data from a slot on, as far as the data reach. -/
def overlaid (data : Array Word) (slot : Nat) : List Word → Array Word
  | [] => data
  | w :: ws => overlaid (data.setIfInBounds slot w) (slot + 1) ws

theorem overlaid_of_le {data : Array Word} {slot : Nat} (h : data.size ≤ slot) (ws : List Word) :
    overlaid data slot ws = data := by
  induction ws generalizing slot with
  | nil => rfl
  | cons w ws ih =>
    unfold overlaid
    rw [Array.setIfInBounds_eq_of_size_le h]
    exact ih (by omega)

namespace Exec

theorem store_of_lt {slot : Nat} (h : slot < m.data.size) (w : Word) :
    store slot w m = .ok () { m with data := m.data.setIfInBounds slot w } := by
  unfold store
  rw [dif_pos h, Array.setIfInBounds, dif_pos h]

theorem store_of_le {slot : Nat} (h : m.data.size ≤ slot) (w : Word) :
    store slot w m = .error (.fault (.slotOutOfBounds slot)) m := by
  unfold store
  rw [dif_neg (by omega)]

/-- Puts words in a row at a distance behind a slot. -/
def storeBehind (slot : Nat) : Nat → List Word → Exec Unit
  | _, [] => pure ()
  | k, w :: ws => do
    store (← slotAfter slot k) w
    storeBehind slot (k + 1) ws

/-- A row that begins within the data or right behind them faults at their end, with all the words
before it stored. By induction on the row: what has been stored so far was within the data. -/
theorem storeBehind_eq_fault {slot k : Nat} {ws : List Word} {f : Fault}
    (h : slot + k ≤ m.data.size) :
    storeBehind slot k ws m = .error (.fault f) m' ↔
      m.data.size < slot + k + ws.length ∧ m.data.size < 0x100000000 ∧
        f = .slotOutOfBounds m.data.size ∧
        m' = { m with data := overlaid m.data (slot + k) ws } := by
  induction ws generalizing k m with
  | nil =>
    constructor
    · intro hstore
      cases hstore
    · rintro ⟨hlt, _⟩
      simp at hlt
      omega
  | cons w ws ih =>
    unfold storeBehind slotAfter overlaid
    by_cases hcount : slot + k < 0x100000000
    · rw [if_pos hcount]
      -- Within the data the rest of the row decides. Right behind them it ends here, and what is
      -- left of it would have gone past the end.
      by_cases hin : slot + k < m.data.size
      · have hstore := store_of_lt hin w
        have hrest := ih (m := { m with data := m.data.setIfInBounds (slot + k) w }) (k := k + 1)
          (by simp; omega)
        show (store (slot + k) w >>= fun _ => storeBehind slot (k + 1) ws) m = _ ↔ _
        rw [bind_of_ok hstore, hrest]
        simp [Nat.add_assoc, Nat.add_comm 1]
      · have hsize : m.data.size = slot + k := by omega
        have hstore : store (slot + k) w m = .error (.fault (.slotOutOfBounds (slot + k))) m :=
          store_of_le (by omega) w
        show (store (slot + k) w >>= fun _ => storeBehind slot (k + 1) ws) m = _ ↔ _
        rw [bind_of_error hstore, Array.setIfInBounds_eq_of_size_le (by omega),
          overlaid_of_le (by omega), hsize]
        simp [hcount, eq_comm]
    · rw [if_neg hcount]
      constructor
      · intro hstore
        cases hstore
      · rintro ⟨_, hlt, _⟩
        omega

theorem slotOf_of_some {w : Word} {slot : UInt32} (h : Word.toUInt32? w = some slot) :
    slotOf w m = .ok slot.toNat m := by
  unfold slotOf
  rw [h]
  rfl

theorem slotOf_of_none {w : Word} (h : Word.toUInt32? w = none) :
    slotOf w m = .error (.fault (.invalidSlotReference w)) m := by
  unfold slotOf
  rw [h]
  rfl

theorem storeQuad_eq (w : Word) (q : Quad) :
    storeQuad w q = slotOf w >>= fun slot => store slot q.first >>= fun _ =>
      storeBehind slot 1 [q.second, q.third, q.fourth] := by
  simp [storeQuad, storeBehind]

/-- Four words in a row that begin within the data fault at their end. -/
theorem storeQuad_eq_fault {w : Word} {slot : UInt32} {q : Quad} {f : Fault}
    (hslot : Word.toUInt32? w = some slot) (hin : slot.toNat < m.data.size) :
    storeQuad w q m = .error (.fault f) m' ↔
      m.data.size < slot.toNat + 4 ∧ m.data.size < 0x100000000 ∧
        f = .slotOutOfBounds m.data.size ∧
        m' = { m with data := overlaid m.data slot.toNat q.toList } := by
  rw [storeQuad_eq, bind_of_ok (slotOf_of_some hslot), bind_of_ok (store_of_lt hin q.first),
    storeBehind_eq_fault (by simp; omega), q.toList_eq]
  simp [overlaid, Nat.add_assoc]

/-- Elsewhere they leave all as it was. -/
theorem storeQuad_outside {w : Word} {q : Quad}
    (h : ∀ slot, Word.toUInt32? w = some slot → m.data.size ≤ slot.toNat) :
    Whole m (storeQuad w q m) := by
  cases hslot : Word.toUInt32? w with
  | none =>
    rw [storeQuad_eq, bind_of_error (slotOf_of_none hslot)]
    exact .of_looked (.error _)
  | some slot =>
    rw [storeQuad_eq, bind_of_ok (slotOf_of_some hslot),
      bind_of_error (store_of_le (h slot hslot) q.first)]
    exact .of_looked (.error _)

end Exec

/-! ## What is left half done -/

/-- A call with some words has faulted when a part of its work was done: it has set one word of two
for want of the other, or written a register over the end of the data. -/
inductive HalfCalled (m : Machine) : Function → List Word → Fault → Machine → Prop
  | pair (r : Register) (half : Half) (w : Word) :
      HalfCalled m (.setPair r half) [w] (.missingArgument 1)
        (m.setRegister r ((m.register r).set half.first w))
  | row (r : Register) {w : Word} {rest : List Word} {slot : UInt32}
      (hslot : Word.toUInt32? w = some slot) (hin : slot.toNat < m.data.size)
      (hover : m.data.size < slot.toNat + 4) (hcount : m.data.size < 0x100000000) :
      HalfCalled m (.storeRegister r) (w :: rest) (.slotOutOfBounds m.data.size)
        { m with data := overlaid m.data slot.toNat (m.register r).toList }

/-- The instruction calls a function with some words. -/
inductive Instr.Calls (m : Machine) : Instr → Function → List Word → Prop
  | call {f : Function} {args : Arguments} {ws : List Word}
      (h : Exec.argumentWords args m = .ok ws m) : Calls m (.call f args) f ws
  | callValue (f : Function) (value : Word) : Calls m (.callValue f value) f [value]
  | callInto {f : Function} {dest : UInt32} {args : Arguments} {ws : List Word}
      (h : Exec.argumentWords args m = .ok ws m) : Calls m (.callInto f dest args) f ws

/-- An instruction has faulted when a part of its work was done: a word popped or a result called
for finds no slot, or the call itself was left half done. -/
inductive HalfDone (view : View) (m : Machine) : Instr → Fault → Machine → Prop
  | pop {dest : UInt32} {w : Word} {rest : List Word} (hstack : m.userStack = w :: rest)
      (hdest : m.data.size ≤ dest.toNat) :
      HalfDone view m (.pop dest) (.slotOutOfBounds dest.toNat) { m with userStack := rest }
  | call {i : Instr} {f : Function} {ws : List Word} {e : Fault} {m' : Machine}
      (hi : i.Calls m f ws) (h : HalfCalled m f ws e m') : HalfDone view m i e m'
  | result {f : Function} {dest : UInt32} {args : Arguments} {ws : List Word} {w : Word}
      {m' : Machine} (hargs : Exec.argumentWords args m = .ok ws m)
      (hcall : Exec.call view f ws m = .ok w m') (hdest : m'.data.size ≤ dest.toNat) :
      HalfDone view m (.callInto f dest args) (.slotOutOfBounds dest.toNat) m'

namespace Exec

theorem call_storeRegister (r : Register) (w : Word) (rest : List Word) :
    call view (.storeRegister r) (w :: rest) m =
      (storeQuad w (m.register r) >>= fun _ => pure 0) m := rfl

theorem call_of_halfCalled {f : Function} {ws : List Word} {e : Fault}
    (h : HalfCalled m f ws e m') : call view f ws m = .error (.fault e) m' := by
  cases h with
  | pair r half w => rfl
  | @row r w rest slot hslot hin hover hcount =>
    have hstore := (storeQuad_eq_fault (q := m.register r) hslot hin).mpr
      ⟨hover, hcount, rfl, rfl⟩
    rw [call_storeRegister, bind_of_error hstore]

/-- A call that faults has done nothing or is half done. -/
theorem halfCalled_of_call {f : Function} {ws : List Word} {e : Fault}
    (h : call view f ws m = .error (.fault e) m') : m' = m ∨ HalfCalled m f ws e m' := by
  by_cases hpair : ∃ r half, f = .setPair r half
  · obtain ⟨r, half, rfl⟩ := hpair
    rcases ws with _ | ⟨w, _ | ⟨w', rest⟩⟩
    · cases h
      exact .inl rfl
    · cases h
      exact .inr (.pair r half w)
    · cases h
  by_cases hrow : ∃ r, f = .storeRegister r
  · obtain ⟨r, rfl⟩ := hrow
    rcases ws with _ | ⟨w, rest⟩
    · cases h
      exact .inl rfl
    · have hstore : storeQuad w (m.register r) m = .error (.fault e) m' := by
        rw [call_storeRegister] at h
        rcases bind_eq_error.mp h with hs | ⟨_, _, _, hs⟩
        · exact hs
        · cases hs
      by_cases hin : ∃ slot, Word.toUInt32? w = some slot ∧ slot.toNat < m.data.size
      · obtain ⟨slot, hslot, hin⟩ := hin
        obtain ⟨hover, hcount, rfl, rfl⟩ := (storeQuad_eq_fault hslot hin).mp hstore
        exact .inr (.row r hslot hin hover hcount)
      · refine .inl (storeQuad_outside ?_ e m' hstore)
        intro slot hslot
        by_contra hlt
        exact hin ⟨slot, hslot, by omega⟩
  · refine .inl (Whole.call ?_ ?_ e m' h)
    · intro r half hf
      exact hpair ⟨r, half, hf⟩
    · intro r hf
      exact hrow ⟨r, hf⟩

/-- A word is put into a slot and the machine goes on. -/
theorem storeThen_eq_fault {slot next : Nat} {w : Word} {e : Fault} :
    (store slot w >>= fun _ => goto next) m = .error (.fault e) m' ↔
      m.data.size ≤ slot ∧ e = .slotOutOfBounds slot ∧ m' = m := by
  by_cases hin : slot < m.data.size
  · rw [bind_of_ok (store_of_lt hin w)]
    constructor
    · intro h
      cases h
    · rintro ⟨hle, _⟩
      omega
  · rw [bind_of_error (store_of_le (by omega) w)]
    simp [eq_comm]
    omega

theorem popUser_of_cons {w : Word} {rest : List Word} (h : m.userStack = w :: rest) :
    popUser m = .ok w { m with userStack := rest } := by
  unfold popUser
  rw [h]

theorem execute_pop {position : Nat} {dest : UInt32} {w : Word} {rest : List Word}
    (h : m.userStack = w :: rest) :
    execute view position (.pop dest) m =
      (store dest.toNat w >>= fun _ => goto (position + 5)) { m with userStack := rest } := by
  show (popUser >>= fun w => store dest.toNat w >>= fun _ => goto _) m = _
  rw [bind_of_ok (popUser_of_cons h)]
  rfl

theorem execute_of_calls_error {position : Nat} {i : Instr} {f : Function} {ws : List Word}
    {e : Halt} (hi : i.Calls m f ws) (h : call view f ws m = .error e m') :
    execute view position i m = .error e m' := by
  cases hi with
  | call hargs => exact execute_call_of_error hargs h
  | callValue f value =>
    show (call view f [value] >>= fun _ => goto _) m = _
    rw [bind_of_error h]
  | callInto hargs => exact execute_callInto_of_error hargs h

theorem execute_of_halfDone {i : Instr} {e : Fault} (h : HalfDone view m i e m')
    (position : Nat) : execute view position i m = .error (.fault e) m' := by
  cases h with
  | pop hstack hdest =>
    rw [execute_pop hstack]
    exact storeThen_eq_fault.mpr ⟨hdest, rfl, rfl⟩
  | call hi h => exact execute_of_calls_error hi (call_of_halfCalled h)
  | @result f dest args ws w _ hargs hcall hdest =>
    show (argumentWords args >>= fun ws => call view f ws >>= fun w =>
      store dest.toNat w >>= fun _ => goto _) m = _
    rw [bind_of_ok hargs, bind_of_ok hcall]
    exact storeThen_eq_fault.mpr ⟨hdest, rfl, rfl⟩

/-- A call is all that the rest of its instruction could fault for. -/
theorem callThen_eq_fault {f : Function} {ws : List Word} {next : Nat} {e : Fault}
    (h : (call view f ws >>= fun _ => goto next) m = .error (.fault e) m') :
    call view f ws m = .error (.fault e) m' := by
  rcases bind_eq_error.mp h with hcall | ⟨w, m₁, _, hgoto⟩
  · exact hcall
  · cases hgoto

/-- An instruction that faults has done nothing or is half done. -/
theorem halfDone_of_execute {position : Nat} {i : Instr} {e : Fault}
    (h : execute view position i m = .error (.fault e) m') : m' = m ∨ HalfDone view m i e m' := by
  -- Only the first four kinds can fault after a change.
  cases i with
  | pop dest =>
    cases hstack : m.userStack with
    | nil =>
      have hpop : popUser m = .error (.fault .userStackUnderflow) m := by
        unfold popUser
        rw [hstack]
      have hnone := bind_of_error (f := fun w => store dest.toNat w >>= fun _ =>
        goto (position + 5)) hpop
      cases h.symm.trans hnone
      exact .inl rfl
    | cons w rest =>
      rw [execute_pop hstack] at h
      obtain ⟨hdest, rfl, rfl⟩ := storeThen_eq_fault.mp h
      exact .inr (.pop hstack hdest)
  | call f args =>
    rcases Looked.bind_eq_fault (.argumentWords args) h with hsame | ⟨ws, hargs, h⟩
    · exact .inl hsame
    · exact (halfCalled_of_call (callThen_eq_fault h)).imp_right (.call (.call hargs))
  | callValue f value =>
    exact (halfCalled_of_call (callThen_eq_fault h)).imp_right (.call (.callValue f value))
  | callInto f dest args =>
    rcases Looked.bind_eq_fault (.argumentWords args) h with hsame | ⟨ws, hargs, h⟩
    · exact .inl hsame
    · rcases bind_eq_error.mp h with hcall | ⟨w, m₁, hcall, hstore⟩
      · exact (halfCalled_of_call hcall).imp_right (.call (.callInto hargs))
      · obtain ⟨hdest, rfl, rfl⟩ := storeThen_eq_fault.mp hstore
        exact .inr (.result hargs hcall hdest)
  | _ => exact .inl (Whole.execute (by simp) (by simp) (by simp) (by simp) position e m' h)

end Exec

/-! ## Where a fault leaves the machine -/

theorem status_change (h : Change view m m') : m'.status = m.status := by
  cases h with
  | data | userStack => rfl
  | register r q => cases r <;> rfl
  | pay hp =>
    obtain ⟨_, ⟨_, rfl⟩ | ⟨_, rfl⟩⟩ := pay_eq_ok hp
    · rfl
    · rfl

theorem status_changes (h : Changes view m m') : m'.status = m.status := by
  induction h with
  | refl => rfl
  | tail _ hc ih => exact (status_change hc).trans ih

/-- A fault comes after changes only: no instruction moves the machine and then faults. -/
theorem changes_of_fault {f : Fault} (h : Exec.step view m = .error (.fault f) m') :
    Changes view m m' := by
  rcases Exec.step_cases view m with ⟨_, _, hs⟩ | ⟨i, _, ⟨_, _, hs⟩ | ⟨_, m₁, hc, he⟩⟩
  · cases h.symm.trans hs
    exact .refl
  · cases h.symm.trans hs
  · rw [h] at he
    cases he with
    | trouble => exact hc

/-- What a fault leaves of a machine, whatever its state and its program. It stands where it stood:
the code, the positions, the handler, the calls it is in, its status, its origin and the length of
its data are the same. And it is the machine that it was, payments and all, unless an instruction
was left half done; each way of that comes about. -/
theorem what_a_fault_leaves_of_a_machine (view : View) (m : Machine) :
    (∀ f m', Exec.step view m = .error (.fault f) m' →
      (m'.code = m.code ∧ m'.pc = m.pc ∧ m'.restart = m.restart ∧ m'.handler = m.handler ∧
        m'.callStack = m.callStack ∧ m'.status = m.status ∧ m'.created = m.created ∧
        m'.creator = m.creator ∧ m'.data.size = m.data.size) ∧
      (m' = m ∨ ∃ i, Instr.fetch m.code m.pc = .ok i ∧ HalfDone view m i f m')) ∧
    ∀ i f m', Instr.fetch m.code m.pc = .ok i → HalfDone view m i f m' →
      Exec.step view m = .error (.fault f) m' := by
  constructor
  · intro f m' h
    have hchanges := changes_of_fault h
    have hplace := samePlace_changes hchanges
    have horigin := Inherits.changes hchanges
    refine ⟨⟨hplace.code, hplace.pc, hplace.restart, hplace.handler, hplace.callStack,
      status_changes hchanges, horigin.created, horigin.creator, hplace.size⟩, ?_⟩
    cases hfetch : Instr.fetch m.code m.pc with
    | error reason =>
      unfold Exec.step at h
      rw [hfetch] at h
      cases h
      exact .inl rfl
    | ok i =>
      rw [Exec.step_of_fetch hfetch] at h
      rcases Exec.halfDone_of_execute h with hsame | hhalf
      · exact .inl hsame
      · exact .inr ⟨i, rfl, hhalf⟩
  · intro i f m' hfetch hhalf
    rw [Exec.step_of_fetch hfetch]
    exact Exec.execute_of_halfDone hhalf m.pc

/-- A call pays out the balance, and there is no slot for its result. The payment stands, and the
position is still that of the call. -/
theorem what_a_fault_leaves_of_a_payment :
    ∃ m', Exec.step ⟨101, #[]⟩
        { Machine.deploy ⟨⟨2, 0, 7, 0, 0, 0, 0⟩, [0x35, 0x04, 0x03, 0, 0, 0, 7], []⟩
            ⟨.account, .replicate 20 1⟩ (timestamp 100 0) 5 with
          b := Address.toWords ⟨.account, .replicate 20 2⟩ } =
        .error (.fault (.slotOutOfBounds 7)) m' ∧
      m'.pc = 0 ∧ m'.balance = 0 ∧
      m'.payments = #[⟨⟨.account, .replicate 20 2⟩, 5, 101⟩] := by
  let recipient : Address := ⟨.account, .replicate 20 2⟩
  let m : Machine :=
    { Machine.deploy ⟨⟨2, 0, 7, 0, 0, 0, 0⟩, [0x35, 0x04, 0x03, 0, 0, 0, 7], []⟩
        ⟨.account, .replicate 20 1⟩ (timestamp 100 0) 5 with b := recipient.toWords }
  have haddress : Exec.addressInB m = .ok recipient m := by
    unfold Exec.addressInB
    rw [recipient.ofWords_toWords]
  let m₁ : Machine :=
    { m with balance := m.balance - 5, payments := m.payments.push ⟨recipient, 5, 101⟩ }
  have hpay : Exec.pay ⟨101, #[]⟩ recipient 5 m = .ok () m₁ := by
    have hdebt : ¬ m.balance < 0 := by decide
    have hpayable : Machine.payable m.balance 5 = 5 := by decide
    have hsome : ¬ (5 : Word) = 0 := by decide
    have hpaid : m.pay 101 recipient 5 = .ok m₁ := by
      unfold Machine.pay
      rw [if_neg hdebt, hpayable]
      exact if_neg hsome
    unfold Exec.pay
    rw [hpaid]
  have hcall : Exec.call ⟨101, #[]⟩ .payAll [] m = .ok 0 m₁ :=
    Exec.bind_eq_ok.mpr ⟨recipient, m, haddress, Exec.bind_eq_ok.mpr ⟨m, m, rfl,
      Exec.bind_eq_ok.mpr ⟨(), m₁, hpay, rfl⟩⟩⟩
  have hfetch : Instr.fetch m.code m.pc = .ok (.callInto .payAll 7 .none) := by decide +kernel
  have hstep := (what_a_fault_leaves_of_a_machine ⟨101, #[]⟩ m).2 _ _ _ hfetch
    (.result rfl hcall (by decide))
  exact ⟨m₁, hstep, rfl, by decide, rfl⟩

end Pledge
