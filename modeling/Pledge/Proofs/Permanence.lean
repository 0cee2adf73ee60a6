-- What lasts in the life of a machine, whatever its program does: its code, its
-- creator and the length of its data stay, its payments stand as they were
-- made, and once it is done nothing changes but its balance.
import Pledge.Proofs.Changes
import Pledge.Proofs.Lifecycle

namespace Pledge

/-! ## Inheritance -/

/-- Two machines have the same code, the same creator and time of creation, and as many data. -/
structure SameOrigin (m m' : Machine) : Prop where
  code : m'.code = m.code
  creator : m'.creator = m.creator
  created : m'.created = m.created
  size : m'.data.size = m.data.size

/-- Payments have come behind others, all of them at one height. -/
def GoOn (height : UInt32) (ps ps' : Array Payment) : Prop :=
  ∃ new, ps'.toList = ps.toList ++ new ∧ ∀ p ∈ new, p.height = height

/-- What one machine has of another, after a time in the block of a height. -/
structure Inherits (height : UInt32) (m m' : Machine) : Prop extends SameOrigin m m' where
  payments : GoOn height m.payments m'.payments

variable {height : UInt32} {m m₁ m' : Machine} {view : View}

theorem SameOrigin.trans (h : SameOrigin m m₁) (h' : SameOrigin m₁ m') : SameOrigin m m' where
  code := h'.code.trans h.code
  creator := h'.creator.trans h.creator
  created := h'.created.trans h.created
  size := h'.size.trans h.size

namespace GoOn

variable {ps ps₁ ps' : Array Payment}

theorem refl (height : UInt32) (ps : Array Payment) : GoOn height ps ps := ⟨[], by simp, by simp⟩

theorem push {p : Payment} (h : p.height = height) : GoOn height ps (ps.push p) :=
  ⟨[p], by simp, by simp [h]⟩

theorem trans (h : GoOn height ps ps₁) (h' : GoOn height ps₁ ps') : GoOn height ps ps' := by
  obtain ⟨new, heq, hnew⟩ := h
  obtain ⟨new', heq', hnew'⟩ := h'
  refine ⟨new ++ new', by rw [heq', heq, List.append_assoc], ?_⟩
  intro p hp
  rcases List.mem_append.mp hp with hp | hp
  · exact hnew p hp
  · exact hnew' p hp

/-- Payments that have come back to where they were have not changed on the way. -/
theorem eq_of_eq (h : GoOn height ps ps₁) (h' : GoOn height ps₁ ps') (heq : ps' = ps) :
    ps₁ = ps := by
  obtain ⟨new, hnew, _⟩ := h
  obtain ⟨new', hnew', _⟩ := h'
  have hnone : new ++ new' = [] := by simpa [heq, hnew] using hnew'
  rw [List.append_eq_nil_iff] at hnone
  rw [hnone.1, List.append_nil] at hnew
  exact Array.toList_inj.mp hnew

end GoOn

namespace Inherits

/-- All else may change. -/
theorem of_same (hsize : m'.data.size = m.data.size := by rfl)
    (hcode : m'.code = m.code := by rfl) (hcreator : m'.creator = m.creator := by rfl)
    (hcreated : m'.created = m.created := by rfl)
    (hpayments : m'.payments = m.payments := by rfl) : Inherits height m m' := by
  refine ⟨⟨hcode, hcreator, hcreated, hsize⟩, ?_⟩
  rw [hpayments]
  exact .refl height m.payments

theorem trans (h : Inherits height m m₁) (h' : Inherits height m₁ m') : Inherits height m m' :=
  ⟨h.toSameOrigin.trans h'.toSameOrigin, h.payments.trans h'.payments⟩

/-! ## One instruction -/

theorem pay {recipient : Address} {amount : Word} (h : m.pay height recipient amount = .ok m') :
    Inherits height m m' := by
  obtain ⟨_, ⟨_, rfl⟩ | ⟨_, rfl⟩⟩ := pay_eq_ok h
  · exact .of_same
  · exact ⟨⟨rfl, rfl, rfl, rfl⟩, .push rfl⟩

theorem change (h : Change view m m') : Inherits view.height m m' := by
  cases h with
  | data slot w hs => exact .of_same (Array.size_set hs)
  | register r q => cases r <;> exact .of_same
  | userStack s => exact .of_same
  | pay hp => exact .pay hp

theorem changes (h : Changes view m m') : Inherits view.height m m' := by
  induction h with
  | refl => exact .of_same
  | tail _ hc ih => exact ih.trans (.change hc)

theorem of_end {position : Nat} {i : Instr} {r : EStateM.Result Halt Machine Flow}
    (h : Ends position i m r) : Inherits height m (leaves r) := by
  cases h <;> exact .of_same

theorem step (view : View) (m : Machine) :
    Inherits view.height m (leaves (Exec.step view m)) := by
  rcases Exec.step_cases view m with ⟨_, _, hs⟩ | ⟨i, _, ⟨_, _, hs⟩ | ⟨_, m₁, hc, he⟩⟩
  · rw [hs]
    exact .of_same
  · rw [hs]
    exact .of_same
  · exact (changes hc).trans (of_end he)

theorem of_step {r : EStateM.Result Halt Machine Flow} (hs : Exec.step view m = r) :
    Inherits view.height m (leaves r) := by
  rw [← hs]
  exact step view m

/-! ## One activation -/

theorem continues {n : Nat} (h : Continues view n m m') : Inherits view.height m m' := by
  induction h with
  | none m => exact .of_same
  | next hs _ ih => exact (of_step hs).trans ih
  | @handled n m m₁ m' f position hs hh _ ih =>
    have hjump : Inherits view.height m₁ { m₁ with pc := position } :=
      .of_same
    exact (of_step hs).trans (hjump.trans ih)

theorem finish (h : m.finish view = .ok m') :
    Inherits view.height m m' ∧ m'.status = .finished := by
  unfold Machine.finish at h
  cases hp : m.pay view.height m.creator m.balance with
  | error a =>
    rw [hp] at h
    cases h
  | ok m₁ =>
    rw [hp] at h
    cases h
    exact ⟨(pay hp).trans (.of_same), rfl⟩

theorem rests (h : Rests view m m') : Inherits view.height m m' := by
  cases h with
  | limit => exact .of_same
  | sleep hs | stop hs | fault hs => exact (of_step hs).trans (.of_same)
  | finish hs hf => exact (of_step hs).trans (finish hf).1

theorem runFor {n : Nat} (h : Machine.runFor view n m = .ok m') : Inherits view.height m m' := by
  obtain ⟨k, m₁, hc, hr⟩ := Machine.rests_of_runFor h
  exact (continues hc).trans (rests hr)

/-! ## One operation -/

theorem takeBlock {c c' : Chain} {b : Block} (h : c.takeBlock b = .ok c') :
    Inherits c'.height c.machine c'.machine := by
  obtain ⟨_, balance, m, _, ha, rfl⟩ := Chain.takeBlock_eq_ok h
  have hcredit : Inherits (c.received b balance).height c.machine (c.received b balance).machine :=
    .of_same
  unfold Chain.activate at ha
  split at ha
  · exact hcredit.trans (runFor ha)
  · cases ha
    exact hcredit

end Inherits

/-- Instructions that have paid nothing in the end have paid nothing on the way. -/
theorem Steps.payments_part {n k : Nat} (h : Steps view n m m') (heq : m'.payments = m.payments)
    (hk : k ≤ n) : ∃ m₁, Steps view k m m₁ ∧ m₁.payments = m.payments := by
  obtain ⟨m₁, h₁, h₂⟩ := h.split hk
  have hfirst := (Inherits.continues h₁.continues).payments
  have hrest := (Inherits.continues h₂.continues).payments
  exact ⟨m₁, h₁, hfirst.eq_of_eq hrest heq⟩

/-! ## Handlers -/

/-- A fault that ends a machine with a handler is the one that no handler is asked about. -/
def Machine.EndsAtLimit (m : Machine) : Prop :=
  ∀ f, m.status = .faulted f → m.handler.isSome = true → f = .stepLimit

theorem Rests.endsAtLimit (h : Rests view m m') : m'.EndsAtLimit := by
  intro f hstatus hhandler
  cases h with
  | limit =>
    cases hstatus
    rfl
  | sleep hs | stop hs => cases hstatus
  | finish hs hf =>
    rw [(Inherits.finish hf).2] at hstatus
    cases hstatus
  | fault hs hh =>
    dsimp only at hhandler
    rw [hh] at hhandler
    cases hhandler

theorem endsAtLimit_takeBlock {c c' : Chain} {b : Block} (hm : c.machine.EndsAtLimit)
    (h : c.takeBlock b = .ok c') : c'.machine.EndsAtLimit := by
  obtain ⟨_, balance, m, _, ha, rfl⟩ := Chain.takeBlock_eq_ok h
  unfold Chain.activate at ha
  split at ha
  · obtain ⟨k, m₁, _, hr⟩ := Machine.rests_of_runFor ha
    exact hr.endsAtLimit
  · cases ha
    exact hm

/-! ## The law of life -/

/-- A transfer that is queued does nothing to the machine yet, and a block lets its payments go
on. -/
theorem payments_perform {c c' : Chain} {op : Operation} (h : c.perform op = .ok c') :
    ∃ new, c'.machine.payments.toList = c.machine.payments.toList ++ new ∧
      ∀ p ∈ new, op = .mine ∧ p.height = c'.height := by
  cases op with
  | pay sender amount | message sender amount =>
    cases h
    exact ⟨[], by simp [Chain.pay, Chain.message, Chain.queue], by simp⟩
  | mine =>
    have hmine : c.mine = .ok c' := h
    rw [Chain.mine_eq_takeBlock] at hmine
    obtain ⟨new, heq, hnew⟩ := (Inherits.takeBlock hmine).payments
    exact ⟨new, heq, fun p hp => ⟨rfl, hnew p hp⟩⟩

/-- The life of a machine, whatever its program does and whatever is done to its chain. It keeps its
code, its creator, the time of its creation and the length of its data. It has a fault exactly if
one ended it, as the type of the status has it, and with a handler only the limit of instructions
can. Once it has finished or faulted, only its balance changes, by what is mined; and so it is in
each block before it wakes, if it sleeps. Payments are added in the block that is mined, behind
those that were made before. -/
theorem what_lasts_in_the_life_of_a_machine (container : Container) (creator : Address)
    (funding : Word) (height : UInt32) (ops : List Operation) (c : Chain)
    (h : (Chain.deploy container creator funding height).performAll ops = .ok c) :
    (c.machine.code = container.code.toArray ∧ c.machine.creator = creator ∧
      c.machine.created = timestamp height 0 ∧
      c.machine.data.size = (Wire.wordsOf container.data).size) ∧
    (c.machine.fault?.isSome = true ↔ ∃ f, c.machine.status = .faulted f) ∧
    (∀ f, c.machine.status = .faulted f → c.machine.handler.isSome = true →
      f = .stepLimit ∧ c.machine.fault?.map Fault.message = some "step limit reached") ∧
    (c.machine.status = .finished ∨ (∃ f, c.machine.status = .faulted f) →
      ∀ later c', c.performAll later = .ok c' →
        c'.machine = { c.machine with balance := c'.machine.balance } ∧
        c'.machine.balance.toInt =
          c.machine.balance.toInt + total (blocksFrom c.pending.toList later).flatten) ∧
    (∀ wake c', c.machine.status = .sleeping wake → c.mine = .ok c' → c'.height < wake →
      c'.machine = { c.machine with balance := c'.machine.balance }) ∧
    ∀ op c', c.perform op = .ok c' →
      ∃ new, c'.machine.payments.toList = c.machine.payments.toList ++ new ∧
        ∀ p ∈ new, op = .mine ∧ p.height = c'.height := by
  obtain ⟨c₁, hblocks, rfl⟩ := (Chain.performAll_eq_ok rfl).mp h
  have horigin : SameOrigin (Chain.deploy container creator funding height).machine c₁.machine :=
    Chain.takeBlocks_keeps
      (P := fun c => SameOrigin (Chain.deploy container creator funding height).machine c.machine)
      (fun hc hb => hc.trans (Inherits.takeBlock hb).toSameOrigin) ⟨rfl, rfl, rfl, rfl⟩ hblocks
  have hlimit : c₁.machine.EndsAtLimit :=
    Chain.takeBlocks_keeps (P := fun c => c.machine.EndsAtLimit) endsAtLimit_takeBlock
      (fun f hf => by cases hf) hblocks
  refine ⟨⟨horigin.code, horigin.creator, horigin.created, horigin.size⟩, ?_, ?_, ?_, ?_, ?_⟩
  · unfold Machine.fault?
    split <;> simp_all
  · intro f hstatus hhandler
    obtain rfl : f = .stepLimit := hlimit f hstatus hhandler
    refine ⟨rfl, ?_⟩
    unfold Machine.fault?
    rw [hstatus]
    rfl
  · intro hdone later c' hlater
    have hisDone : (c₁.withPending (queuedAfter [] ops)).machine.isDone = true := by
      unfold Machine.isDone
      rcases hdone with hstatus | ⟨f, hstatus⟩
      · rw [hstatus]
      · rw [hstatus]
    obtain ⟨balance, hm, hbalance⟩ := Chain.machine_performAll_of_done hisDone hlater
    rw [hm]
    exact ⟨rfl, hbalance⟩
  · intro wake c' hsleeping hmine hbefore
    rw [Chain.mine_eq_takeBlock] at hmine
    have hasleep : (c₁.withPending (queuedAfter [] ops)).machine.awakeAt c'.height = false := by
      rw [Chain.awakeAt_of_sleeping hsleeping]
      simpa using hbefore
    obtain ⟨balance, hm, _⟩ := Chain.machine_takeBlock_of_asleep hmine hasleep
    rw [hm]
  · intro op c' hop
    exact payments_perform hop

set_option maxRecDepth 4000 in
/-- A program that sleeps for three blocks from height 101 and then finishes. Block 102 only brings
it money. -/
theorem what_lasts_in_the_life_of_a_sleeper :
    ∃ c c', (Chain.deploy ⟨⟨2, 0, 10, 0, 0, 0, 0⟩, [0x2c, 0, 0, 0, 0, 0, 0, 0, 3, 0x28], []⟩
        ⟨.account, .replicate 20 1⟩ 5 100).performAll
        [.mine, .pay ⟨.account, .replicate 20 2⟩ 3] = .ok c ∧
      c.machine.status = .sleeping 104 ∧ c.mine = .ok c' ∧ c'.machine.balance = 8 ∧
      c'.machine = { c.machine with balance := c'.machine.balance } := by
  have hlaw := what_lasts_in_the_life_of_a_machine
    ⟨⟨2, 0, 10, 0, 0, 0, 0⟩, [0x2c, 0, 0, 0, 0, 0, 0, 0, 3, 0x28], []⟩
    ⟨.account, .replicate 20 1⟩ 5 100 [.mine, .pay ⟨.account, .replicate 20 2⟩ 3] _ rfl
  obtain ⟨_, _, _, _, hsleep, _⟩ := hlaw
  exact ⟨_, _, rfl, rfl, rfl, rfl, hsleep 104 _ rfl rfl (by decide)⟩

end Pledge
