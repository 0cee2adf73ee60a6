-- Runs of a machine: instructions in a row, and how they begin and end an
-- activation.
import Pledge.Machine.Step

namespace Pledge

namespace Exec

theorem bind_of_ok {α β : Type} {x : Exec α} {f : α → Exec β} {a : α} {m m' : Machine}
    (h : x m = .ok a m') : (x >>= f) m = f a m' := by
  show EStateM.bind x f m = f a m'
  unfold EStateM.bind
  rw [h]

theorem bind_of_error {α β : Type} {x : Exec α} {f : α → Exec β} {e : Halt} {m m' : Machine}
    (h : x m = .error e m') : (x >>= f) m = .error e m' := by
  show EStateM.bind x f m = .error e m'
  unfold EStateM.bind
  rw [h]

theorem bind_eq_ok {α β : Type} {x : Exec α} {f : α → Exec β} {b : β} {m m' : Machine} :
    (x >>= f) m = .ok b m' ↔ ∃ a m₁, x m = .ok a m₁ ∧ f a m₁ = .ok b m' := by
  cases hx : x m with
  | ok a m₁ =>
    rw [bind_of_ok hx]
    constructor
    · intro h
      exact ⟨a, m₁, rfl, h⟩
    · rintro ⟨a', m₁', h, hf⟩
      cases h
      exact hf
  | error e m₁ =>
    rw [bind_of_error hx]
    simp

theorem bind_eq_error {α β : Type} {x : Exec α} {f : α → Exec β} {e : Halt} {m m' : Machine} :
    (x >>= f) m = .error e m' ↔
      x m = .error e m' ∨ ∃ a m₁, x m = .ok a m₁ ∧ f a m₁ = .error e m' := by
  cases hx : x m with
  | ok a m₁ =>
    rw [bind_of_ok hx]
    constructor
    · intro h
      exact .inr ⟨a, m₁, rfl, h⟩
    · rintro (h | ⟨a', m₁', h, hf⟩)
      · cases h
      · cases h
        exact hf
  | error e' m₁ =>
    rw [bind_of_error hx]
    simp

theorem step_of_fetch {view : View} {m : Machine} {i : Instr}
    (h : Instr.fetch m.code m.pc = .ok i) : step view m = execute view m.pc i m := by
  unfold step
  rw [h]

/-! ## One instruction -/

section

variable {view : View} {m m₁ m₂ : Machine} {position : Nat}

theorem execute_call {f : Function} {args : Arguments} {ws : List Word} {w : Word}
    (ha : argumentWords args m = .ok ws m) (hc : call view f ws m = .ok w m₁) :
    execute view position (.call f args) m =
      .ok .next { m₁ with pc := position + (InstrWith.call f args : Instr).size } := by
  show (argumentWords args >>= fun ws => call view f ws >>= fun _ => goto _) m = _
  rw [bind_of_ok ha, bind_of_ok hc]
  rfl

theorem execute_call_of_error {f : Function} {args : Arguments} {ws : List Word} {e : Halt}
    (ha : argumentWords args m = .ok ws m) (hc : call view f ws m = .error e m₁) :
    execute view position (.call f args) m = .error e m₁ := by
  show (argumentWords args >>= fun ws => call view f ws >>= fun _ => goto _) m = _
  rw [bind_of_ok ha, bind_of_error hc]

theorem execute_callValue {f : Function} {value w : Word}
    (hc : call view f [value] m = .ok w m₁) :
    execute view position (.callValue f value) m = .ok .next { m₁ with pc := position + 11 } := by
  show (call view f [value] >>= fun _ => goto _) m = _
  rw [bind_of_ok hc]
  rfl

theorem execute_callInto {f : Function} {dest : UInt32} {args : Arguments} {ws : List Word}
    {w : Word} (ha : argumentWords args m = .ok ws m) (hc : call view f ws m = .ok w m₁)
    (hs : store dest.toNat w m₁ = .ok () m₂) :
    execute view position (.callInto f dest args) m =
      .ok .next { m₂ with pc := position + (InstrWith.callInto f dest args : Instr).size } := by
  show (argumentWords args >>= fun ws => call view f ws >>= fun w => store dest.toNat w >>=
    fun _ => goto _) m = _
  rw [bind_of_ok ha, bind_of_ok hc, bind_of_ok hs]
  rfl

theorem execute_callInto_of_error {f : Function} {dest : UInt32} {args : Arguments}
    {ws : List Word} {e : Halt} (ha : argumentWords args m = .ok ws m)
    (hc : call view f ws m = .error e m₁) :
    execute view position (.callInto f dest args) m = .error e m₁ := by
  show (argumentWords args >>= fun ws => call view f ws >>= fun w => _) m = _
  rw [bind_of_ok ha, bind_of_error hc]

theorem execute_copy {dest src : UInt32} {w : Word} (hl : load src.toNat m = .ok w m)
    (hs : store dest.toNat w m = .ok () m₁) :
    execute view position (.copy dest src) m = .ok .next { m₁ with pc := position + 9 } := by
  show (load src.toNat >>= fun w => store dest.toNat w >>= fun _ => goto _) m = _
  rw [bind_of_ok hl, bind_of_ok hs]
  rfl

theorem execute_immediate {op : ImmediateOp} {dest : UInt32} {value lhs w : Word}
    (hl : load dest.toNat m = .ok lhs m) (hop : op.binary.apply lhs value = some w)
    (hs : store dest.toNat w m = .ok () m₁) :
    execute view position (.immediate op dest value) m =
      .ok .next { m₁ with pc := position + (InstrWith.immediate op dest value : Instr).size } := by
  have hu : update dest.toNat op.binary value m = .ok () m₁ := by
    unfold update
    rw [bind_of_ok hl, hop]
    exact hs
  show (update dest.toNat op.binary value >>= fun _ => goto _) m = _
  rw [bind_of_ok hu]
  rfl

theorem execute_branch {cmp : Comparison} {left right : UInt32} {offset : Int8} {l r : Word}
    (hl : load left.toNat m = .ok l m) (hr : load right.toNat m = .ok r m) :
    execute view position (.branch cmp left right offset) m =
      branchIf (cmp.holds l r) position (position + 10) offset m := by
  have hsize : (InstrWith.branch cmp left right offset : Instr).size = 10 := by
    cases cmp <;> rfl
  show (load left.toNat >>= fun l => load right.toNat >>= fun r => branchIf _ _ _ _) m = _
  rw [bind_of_ok hl, bind_of_ok hr, hsize]

theorem execute_branchZero {src : UInt32} {offset : Int8} {w : Word}
    (hl : load src.toNat m = .ok w m) :
    execute view position (.branchZero src offset) m =
      branchIf (w == 0) position (position + 6) offset m := by
  show (load src.toNat >>= fun w => branchIf _ _ _ _) m = _
  rw [bind_of_ok hl]
  rfl

theorem execute_sleepUntil {height : UInt32} {w : Word} {wake : UInt32}
    (hl : load height.toNat m = .ok w m) (hw : Word.toUInt32? w = some wake) :
    execute view position (.sleepUntil height) m =
      .ok (.sleep wake) { m with pc := position + 5 } := by
  show (load height.toNat >>= fun w => orFault (Word.toUInt32? w) .invalidSleepHeight >>=
    fun wake => sleepAt _ wake) m = _
  rw [bind_of_ok hl, hw]
  rfl

theorem branchIf_false {next : Nat} {offset : Int8} :
    branchIf false position next offset m = .ok .next { m with pc := next } := rfl

theorem branchIf_true {next target : Nat} {offset : Int8}
    (ht : positionAfter? position offset.toInt = some target) :
    branchIf true position next offset m = .ok .next { m with pc := target } := by
  unfold branchIf
  rw [if_pos rfl, ht]
  rfl

end

end Exec

/-- A number of instructions in a row, after each of which the activation goes on: with the next
instruction, or at the handler of a fault. -/
inductive Continues (view : View) : Nat → Machine → Machine → Prop
  | none (m : Machine) : Continues view 0 m m
  | next {n : Nat} {m m₁ m' : Machine} (hs : Exec.step view m = .ok .next m₁)
      (h : Continues view n m₁ m') : Continues view (n + 1) m m'
  | handled {n : Nat} {m m₁ m' : Machine} {f : Fault} {position : Nat}
      (hs : Exec.step view m = .error (.fault f) m₁) (hh : m₁.handler = some position)
      (h : Continues view n { m₁ with pc := position } m') : Continues view (n + 1) m m'

/-- The instructions of a row are taken off the limit. -/
theorem Continues.runFor_add {view : View} {n : Nat} {m m' : Machine}
    (h : Continues view n m m') (k : Nat) :
    Machine.runFor view (n + k) m = Machine.runFor view k m' := by
  induction h with
  | none => rw [Nat.zero_add]
  | next hs _ ih =>
    rw [Nat.add_right_comm, Machine.runFor, hs]
    exact ih
  | handled hs hh _ ih =>
    rw [Nat.add_right_comm, Machine.runFor, hs]
    dsimp only
    split
    · rename_i hh'
      cases hh.symm.trans hh'
      exact ih
    · rename_i hh'
      cases hh.symm.trans hh'

/-- An activation comes to rest: at its limit, or with the instruction that ends it. -/
inductive Rests (view : View) (m : Machine) : Machine → Prop
  | limit : Rests view m { m with status := .faulted .stepLimit }
  | sleep {m₁ : Machine} {wake : UInt32} (hs : Exec.step view m = .ok (.sleep wake) m₁) :
      Rests view m { m₁ with status := .sleeping wake }
  | stop {m₁ : Machine} (hs : Exec.step view m = .ok .stop m₁) :
      Rests view m { m₁ with pc := m₁.restart, status := .ready }
  | finish {m₁ m' : Machine} (hs : Exec.step view m = .ok .finish m₁)
      (hf : m₁.finish view = .ok m') : Rests view m m'
  | fault {m₁ : Machine} {f : Fault} (hs : Exec.step view m = .error (.fault f) m₁)
      (hh : m₁.handler = none) : Rests view m { m₁ with status := .faulted f }

/-- An activation that does not abort is a row of instructions that comes to rest. By induction on
the instructions left. -/
theorem Machine.rests_of_runFor {view : View} {n : Nat} {m m' : Machine}
    (h : Machine.runFor view n m = .ok m') :
    ∃ k m₁, Continues view k m m₁ ∧ Rests view m₁ m' := by
  induction n generalizing m with
  | zero =>
    cases h
    exact ⟨0, m, .none m, .limit⟩
  | succ n ih =>
    unfold Machine.runFor at h
    split at h
    · rename_i m₁ hs
      obtain ⟨k, m₂, hc, hr⟩ := ih h
      exact ⟨k + 1, m₂, .next hs hc, hr⟩
    · rename_i wake m₁ hs
      cases h
      exact ⟨0, m, .none m, .sleep hs⟩
    · rename_i m₁ hs
      cases h
      exact ⟨0, m, .none m, .stop hs⟩
    · rename_i m₁ hs
      exact ⟨0, m, .none m, .finish hs h⟩
    · rename_i f m₁ hs
      split at h
      · rename_i position hh
        obtain ⟨k, m₂, hc, hr⟩ := ih h
        exact ⟨k + 1, m₂, .handled hs hh hc, hr⟩
      · rename_i hh
        cases h
        exact ⟨0, m, .none m, .fault hs hh⟩
    · cases h

/-- An activation aborts at the first instruction that aborts, or where it cannot pay what is left
at its end. By induction on the instructions left. -/
theorem Machine.runFor_eq_error {view : View} {n : Nat} {m : Machine} {a : Abort} :
    Machine.runFor view n m = .error a ↔ ∃ k m₁, k < n ∧ Continues view k m m₁ ∧
      ((∃ m₂, Exec.step view m₁ = .error (.abort a) m₂) ∨
        ∃ m₂, Exec.step view m₁ = .ok .finish m₂ ∧ m₂.finish view = .error a) := by
  constructor
  · intro h
    induction n generalizing m with
    | zero => cases h
    | succ n ih =>
      unfold Machine.runFor at h
      split at h
      · rename_i m₁ hs
        obtain ⟨k, m₂, hk, hc, hend⟩ := ih h
        exact ⟨k + 1, m₂, by omega, .next hs hc, hend⟩
      · cases h
      · cases h
      · rename_i m₁ hs
        exact ⟨0, m, by omega, .none m, .inr ⟨m₁, hs, h⟩⟩
      · rename_i f m₁ hs
        split at h
        · rename_i position hh
          obtain ⟨k, m₂, hk, hc, hend⟩ := ih h
          exact ⟨k + 1, m₂, by omega, .handled hs hh hc, hend⟩
        · cases h
      · rename_i a' m₁ hs
        cases h
        exact ⟨0, m, by omega, .none m, .inl ⟨m₁, hs⟩⟩
  · rintro ⟨k, m₁, hk, hc, hend⟩
    obtain ⟨j, rfl⟩ := Nat.exists_eq_add_of_le hk
    rw [Nat.succ_add_eq_add_succ, hc.runFor_add]
    rcases hend with ⟨m₂, hs⟩ | ⟨m₂, hs, hf⟩
    · rw [Machine.runFor, hs]
    · rw [Machine.runFor, hs]
      exact hf

/-- A number of instructions in a row, each of which goes on to the next. -/
inductive Steps (view : View) : Nat → Machine → Machine → Prop
  | none (m : Machine) : Steps view 0 m m
  | one {n : Nat} {m m₁ m' : Machine} :
      Exec.step view m = .ok .next m₁ → Steps view n m₁ m' → Steps view (n + 1) m m'

namespace Steps

variable {view : View} {n k : Nat} {m m₁ m' : Machine}

theorem single (h : Exec.step view m = .ok .next m') : Steps view 1 m m' := .one h (.none m')

theorem trans (h : Steps view n m m₁) (h' : Steps view k m₁ m') : Steps view (n + k) m m' := by
  induction h with
  | none => simpa using h'
  | one hs _ ih =>
    rw [Nat.add_right_comm]
    exact .one hs (ih h')

/-- One more instruction. -/
theorem next (h : Steps view n m m₁) (hs : Exec.step view m₁ = .ok .next m') :
    Steps view (n + 1) m m' :=
  h.trans (.single hs)

theorem continues (h : Steps view n m m') : Continues view n m m' := by
  induction h with
  | none m => exact .none m
  | one hs _ ih => exact .next hs ih

theorem runFor_add (h : Steps view n m m') :
    Machine.runFor view (n + k) m = Machine.runFor view k m' :=
  h.continues.runFor_add k

/-- A row of instructions and one that finishes end the activation, if they are within the
limit. -/
theorem run_finish (h : Steps view n m m₁) (hs : Exec.step view m₁ = .ok .finish m')
    (hn : n + 1 ≤ Machine.stepLimit) : m.run view = m'.finish view := by
  obtain ⟨k, hk⟩ := Nat.exists_eq_add_of_le hn
  rw [Machine.run, hk, Nat.add_assoc, h.runFor_add, Nat.add_comm, Machine.runFor, hs]

/-- The same for one that sleeps. -/
theorem run_sleep {wake : UInt32} (h : Steps view n m m₁)
    (hs : Exec.step view m₁ = .ok (.sleep wake) m') (hn : n + 1 ≤ Machine.stepLimit) :
    m.run view = .ok { m' with status := .sleeping wake } := by
  obtain ⟨k, hk⟩ := Nat.exists_eq_add_of_le hn
  rw [Machine.run, hk, Nat.add_assoc, h.runFor_add, Nat.add_comm, Machine.runFor, hs]

/-- A row of instructions can be cut anywhere. -/
theorem split (h : Steps view n m m') (hk : k ≤ n) :
    ∃ m₁, Steps view k m m₁ ∧ Steps view (n - k) m₁ m' := by
  induction h generalizing k with
  | none m =>
    obtain rfl : k = 0 := Nat.le_zero.mp hk
    exact ⟨m, .none m, .none m⟩
  | @one n m m₁ m' hs hrest ih =>
    cases k with
    | zero => exact ⟨m, .none m, .one hs hrest⟩
    | succ k =>
      obtain ⟨m₂, h₂, h₃⟩ := ih (Nat.le_of_succ_le_succ hk)
      rw [Nat.add_sub_add_right]
      exact ⟨m₂, .one hs h₂, h₃⟩

/-- A row of instructions that takes up the whole limit ends in a fault. -/
theorem run_limit (h : Steps view Machine.stepLimit m m') :
    m.run view = .ok { m' with status := .faulted .stepLimit } := by
  have hrun := h.runFor_add (k := 0)
  rw [Nat.add_zero] at hrun
  exact hrun

end Steps

end Pledge
