-- What holds of a machine at all times: at its deployment, between blocks,
-- and before each instruction that it executes.
import Pledge.Proofs.Changes
import Pledge.Proofs.Lifecycle

namespace Pledge

/-- The machine is in this state when it executes an instruction in the next block of the chain. -/
def Chain.Executes (c : Chain) (view : View) (m : Machine) : Prop :=
  c.height.toNat + 1 < 2 ^ 32 ∧ ∃ balance txs,
    Chain.receive (c.height + 1) c.machine.balance c.txs 0 c.pending.toList =
      .ok (balance, txs) ∧
    view = ⟨c.height + 1, txs⟩ ∧
    c.machine.awakeAt view.height = true ∧
    ∃ n, n < Machine.stepLimit ∧ Continues view n { c.machine with balance := balance } m

/-- In a block that was mined, the machine executes an instruction if and only if it is awake. -/
theorem Chain.exists_executes_iff {c c' : Chain} (h : c.mine = .ok c') :
    (∃ view m, c.Executes view m) ↔ c.machine.awakeAt c'.height = true := by
  rw [Chain.mine_eq_takeBlock] at h
  obtain ⟨hh, balance, m, hr, _, rfl⟩ := Chain.takeBlock_inv h
  constructor
  · rintro ⟨view, m, _, _, _, _, rfl, hawake, _⟩
    exact hawake
  · intro hawake
    exact ⟨_, _, hh, balance, _, hr, rfl, hawake, 0, by decide, .none _⟩

/-- A property that instructions in a row do not end, whether they fail or not. -/
structure Kept (P : Machine → Prop) : Prop where
  step : ∀ (view : View) {m : Machine}, P m → P (leaves (Exec.step view m))
  handler : ∀ {m : Machine} {position : Nat}, P m → m.handler = some position →
    P { m with pc := position }

namespace Kept

variable {P : Machine → Prop} {view : View} {n : Nat} {m m' : Machine}

theorem of_step (h : Kept P) {r : EStateM.Result Halt Machine Flow} (hs : Exec.step view m = r)
    (hm : P m) : P (leaves r) := by
  rw [← hs]
  exact h.step view hm

theorem continues (h : Kept P) (hc : Continues view n m m') (hm : P m) : P m' := by
  induction hc with
  | none => exact hm
  | next hs _ ih => exact ih (h.of_step hs hm)
  | handled hs hh _ ih => exact ih (h.handler (h.of_step hs hm) hh)

end Kept

/-- A property that lasts, whatever the program and its chain do: it is kept, it depends on the
place in the program only, and a stop does not end it. -/
structure Lasting (P : Machine → Prop) : Prop extends Kept P where
  same : ∀ {m m' : Machine}, P m → SamePlace m m' → P m'
  stop : ∀ {m : Machine}, P m → P { m with pc := m.restart }

namespace Lasting

variable {P : Machine → Prop} {view : View} {n : Nat} {m m' : Machine} {c c' : Chain}

/-! ## One activation -/

theorem status (h : Lasting P) (status : Status) (hm : P m) : P { m with status := status } :=
  h.same hm ⟨rfl, rfl, rfl, rfl, rfl, rfl⟩

theorem finish (h : Lasting P) (hf : m.finish view = .ok m') (hm : P m) : P m' := by
  unfold Machine.finish at hf
  cases hp : m.pay view.height m.creator m.balance with
  | error a =>
    rw [hp] at hf
    cases hf
  | ok m₁ =>
    rw [hp] at hf
    cases hf
    exact h.status _ (h.same hm (samePlace_change (.pay hp)))

theorem runFor (h : Lasting P) (hr : Machine.runFor view n m = .ok m') (hm : P m) : P m' := by
  obtain ⟨k, m₁, hc, hrest⟩ := Machine.rests_of_runFor hr
  have h₁ : P m₁ := h.continues hc hm
  cases hrest with
  | limit => exact h.status _ h₁
  | sleep hs => exact h.status _ (h.of_step hs h₁)
  | stop hs => exact h.status _ (h.stop (h.of_step hs h₁))
  | finish hs hf => exact h.finish hf (h.of_step hs h₁)
  | fault hs hh => exact h.status _ (h.of_step hs h₁)

/-! ## Every history -/

theorem credit (h : Lasting P) (balance : Word) (hm : P m) : P { m with balance := balance } :=
  h.same hm ⟨rfl, rfl, rfl, rfl, rfl, rfl⟩

theorem takeBlock (h : Lasting P) {b : Block} (hb : c.takeBlock b = .ok c') (hm : P c.machine) :
    P c'.machine := by
  obtain ⟨_, balance, m, _, ha, rfl⟩ := Chain.takeBlock_eq_ok hb
  have hcredit : P (c.received b balance).machine := h.credit balance hm
  unfold Chain.activate at ha
  split at ha
  · exact h.runFor ha hcredit
  · cases ha
    exact hcredit

theorem performAll (h : Lasting P) {ops : List Operation} (hops : c.performAll ops = .ok c')
    (hm : P c.machine) : P c'.machine := by
  obtain ⟨c₁, hb, rfl⟩ := Chain.performAll_iff.mp hops
  have hlast : P c₁.machine := Chain.takeBlocks_keeps (P := fun c => P c.machine)
    (fun hc hb => h.takeBlock hb hc) hm hb
  exact hlast

theorem executes (h : Lasting P) (he : c.Executes view m) (hm : P c.machine) : P m := by
  obtain ⟨_, balance, _, _, _, _, _, _, hc⟩ := he
  exact h.continues hc (h.credit balance hm)

end Lasting

/-- Data never grow or shrink. -/
theorem lasting_size (size : Nat) : Lasting fun m => m.data.size = size where
  same hm hs := hs.size.trans hm
  step view m hm := by
    obtain ⟨m₁, hc, hs⟩ := Exec.leaves_step view m
    rw [hs.data, (samePlace_changes hc).size]
    exact hm
  handler hm _ := hm
  stop hm := hm

end Pledge
