-- The laws of money, for every program: what a machine has and what it has
-- paid is what it was given. No payment is empty, a machine that is given no
-- debts has none, and a machine that finishes keeps nothing.
import Pledge.Proofs.Changes
import Pledge.Proofs.History

namespace Pledge

/-- All that was paid, as an integer. -/
def paid (ps : Array Payment) : Int := (ps.toList.map (·.amount.toInt)).sum

theorem paid_push (ps : Array Payment) (p : Payment) :
    paid (ps.push p) = paid ps + p.amount.toInt := by
  simp [paid]

/-- What a machine has, and what it has paid. -/
def Machine.wealth (m : Machine) : Int := m.balance.toInt + paid m.payments

/-- No payment is empty. -/
def Machine.PaysPositive (m : Machine) : Prop := ∀ p ∈ m.payments, 0 < p.amount.toInt

/-- One machine comes from another, and no money was made or lost on the way. -/
structure Conserves (m m' : Machine) : Prop where
  wealth : m'.wealth = m.wealth
  positive : m.PaysPositive → m'.PaysPositive
  solvent : 0 ≤ m.balance.toInt → 0 ≤ m'.balance.toInt

namespace Conserves

theorem trans {m m' m'' : Machine} (h : Conserves m m') (h' : Conserves m' m'') :
    Conserves m m'' where
  wealth := h'.wealth.trans h.wealth
  positive hp := h'.positive (h.positive hp)
  solvent hs := h'.solvent (h.solvent hs)

/-- Money is only in the balance and in the payments. -/
theorem of_same {m m' : Machine} (hb : m'.balance = m.balance) (hp : m'.payments = m.payments) :
    Conserves m m' where
  wealth := by rw [Machine.wealth, Machine.wealth, hb, hp]
  positive h := by rwa [Machine.PaysPositive, hp]
  solvent h := by rwa [hb]

end Conserves

/-! ## Payments -/

/-- What can be paid lies between nothing and the balance. -/
theorem payable_bounds {balance : Word} (amount : Word) (h : 0 ≤ balance.toInt) :
    0 ≤ (Machine.payable balance amount).toInt ∧
      (Machine.payable balance amount).toInt ≤ balance.toInt := by
  unfold Machine.payable
  split
  · exact ⟨by simp, by simpa using h⟩
  · rename_i hneg
    rw [Int64.lt_iff_toInt_lt, Int64.toInt_zero] at hneg
    split
    · exact ⟨h, Int.le_refl _⟩
    · rename_i hle
      rw [Int64.lt_iff_toInt_lt] at hle
      omega

theorem conserves_pay {height : UInt32} {recipient : Address} {amount : Word} {m m' : Machine}
    (h : m.pay height recipient amount = .ok m') : Conserves m m' := by
  obtain ⟨hb, ⟨_, rfl⟩ | ⟨hne, rfl⟩⟩ := pay_eq_ok h
  · exact .of_same rfl rfl
  · obtain ⟨hlow, hhigh⟩ := payable_bounds amount hb
    have hfit := Word.fits_toInt m.balance
    have hsub : (m.balance - Machine.payable m.balance amount).toInt =
        m.balance.toInt - (Machine.payable m.balance amount).toInt :=
      Word.toInt_sub (by unfold Word.Fits at hfit ⊢; omega)
    have hpos : 0 < (Machine.payable m.balance amount).toInt := by
      have : (Machine.payable m.balance amount).toInt ≠ 0 := fun h0 =>
        hne (Int64.toInt_inj.mp (by rw [h0, Int64.toInt_zero]))
      omega
    refine ⟨?_, ?_, ?_⟩
    · simp only [Machine.wealth, paid_push, hsub]
      omega
    · intro hp p hmem
      rcases Array.mem_push.mp hmem with hold | rfl
      · exact hp p hold
      · exact hpos
    · intro _
      simp only [hsub]
      omega

/-! ## Every program -/

theorem conserves_change {view : View} {m m' : Machine} (h : Change view m m') :
    Conserves m m' := by
  cases h with
  | pay hp => exact conserves_pay hp
  | register r q => cases r <;> exact .of_same rfl rfl
  | _ => exact .of_same rfl rfl

theorem conserves_changes {view : View} {m m' : Machine} (h : Changes view m m') :
    Conserves m m' := by
  induction h with
  | refl => exact .of_same rfl rfl
  | tail _ hc ih => exact ih.trans (conserves_change hc)

/-- No instruction makes money or loses it, not even one that fails. -/
theorem conserves_step (view : View) (m : Machine) : Conserves m (leaves (Exec.step view m)) := by
  obtain ⟨m₁, hc, hs⟩ := Exec.leaves_step view m
  exact (conserves_changes hc).trans (.of_same hs.balance hs.payments)

/-- A machine that finishes pays out all that it has. -/
theorem conserves_finish {view : View} {m m' : Machine} (h : m.finish view = .ok m') :
    Conserves m m' ∧ m'.balance = 0 := by
  unfold Machine.finish at h
  cases hp : m.pay view.height m.creator m.balance with
  | error a =>
    rw [hp] at h
    cases h
  | ok m₁ =>
    rw [hp] at h
    cases h
    have hall : Machine.payable m.balance m.balance = m.balance := by
      have hb := (pay_eq_ok hp).1
      have hneg : ¬ m.balance < 0 := by rw [Int64.lt_iff_toInt_lt, Int64.toInt_zero]; omega
      simp [Machine.payable, hneg]
    refine ⟨(conserves_pay hp).trans (.of_same rfl rfl), ?_⟩
    obtain ⟨_, ⟨h0, rfl⟩ | ⟨_, rfl⟩⟩ := pay_eq_ok hp
    · rw [hall] at h0
      exact h0
    · simp [hall]

theorem conserves_continues {view : View} {n : Nat} {m m' : Machine}
    (h : Continues view n m m') : Conserves m m' := by
  induction h with
  | none m => exact .of_same rfl rfl
  | @next n m m₁ m' hs _ ih =>
    have hstep := conserves_step view m
    rw [hs] at hstep
    exact hstep.trans ih
  | @handled n m m₁ m' f position hs _ _ ih =>
    have hstep := conserves_step view m
    rw [hs] at hstep
    have hjump : Conserves m₁ { m₁ with pc := position } := .of_same rfl rfl
    exact hstep.trans (hjump.trans ih)

/-- What an activation does to the money, however it ends. -/
theorem conserves_runFor {view : View} {n : Nat} {m m' : Machine}
    (h : Machine.runFor view n m = .ok m') :
    Conserves m m' ∧ (m'.status = .finished → m'.balance = 0) := by
  obtain ⟨k, m₁, hc, hrest⟩ := Machine.rests_of_runFor h
  have hrow := conserves_continues hc
  have hstep := conserves_step view m₁
  cases hrest with
  | limit => exact ⟨hrow.trans (.of_same rfl rfl), fun hs => by cases hs⟩
  | sleep hs | stop hs | fault hs =>
    rw [hs] at hstep
    exact ⟨hrow.trans (hstep.trans (.of_same rfl rfl)), fun hs => by cases hs⟩
  | finish hs hf =>
    rw [hs] at hstep
    obtain ⟨hend, hzero⟩ := conserves_finish hf
    exact ⟨hrow.trans (hstep.trans hend), fun _ => hzero⟩

/-! ## Every history -/

/-- A block adds its transfers to the wealth of the machine, and nothing else. -/
theorem wealth_takeBlock {c c' : Chain} {b : Block} (h : c.takeBlock b = .ok c') :
    c'.machine.wealth = c.machine.wealth + total b ∧
      (c.machine.PaysPositive → c'.machine.PaysPositive) ∧
      (0 ≤ c.machine.balance.toInt + total b → 0 ≤ c'.machine.balance.toInt) ∧
      (c.machine.status ≠ .finished → c'.machine.status = .finished →
        c'.machine.balance = 0) := by
  obtain ⟨_, balance, m, hb, ha, rfl⟩ := Chain.takeBlock_eq_ok h
  have hw : (c.received b balance).machine.wealth = c.machine.wealth + total b := by
    simp only [Machine.wealth, Chain.received, hb]
    omega
  unfold Chain.activate at ha
  split at ha
  · obtain ⟨hc, hf⟩ := conserves_runFor ha
    refine ⟨hc.wealth.trans hw, hc.positive, fun h0 => hc.solvent ?_, fun _ => hf⟩
    rw [← hb] at h0
    exact h0
  · cases ha
    refine ⟨hw, id, fun h0 => ?_, fun hne hfin => absurd hfin hne⟩
    rw [← hb] at h0
    exact h0

theorem wealth_takeBlocks {c c' : Chain} {bs : List Block} (h : c.takeBlocks bs = .ok c') :
    c'.machine.wealth = c.machine.wealth + total bs.flatten ∧
      (c.machine.PaysPositive → c'.machine.PaysPositive) ∧
      ((∀ t ∈ bs.flatten, 0 ≤ t.amount.toInt) → 0 ≤ c.machine.balance.toInt →
        0 ≤ c'.machine.balance.toInt) := by
  induction bs generalizing c with
  | nil =>
    cases h
    simp [total]
  | cons b bs ih =>
    unfold Chain.takeBlocks at h
    split at h
    · rename_i c₁ h₁
      obtain ⟨hw₁, hp₁, hs₁, _⟩ := wealth_takeBlock h₁
      obtain ⟨hw, hp, hs⟩ := ih h
      have hsum : total (b :: bs).flatten = total b + total bs.flatten := by simp [total]
      refine ⟨by omega, fun h0 => hp (hp₁ h0), fun hpos h0 => ?_⟩
      have hb : 0 ≤ total b := total_nonneg fun t ht => hpos t (by simp [ht])
      exact hs (fun t ht => hpos t (by simp at ht ⊢; exact .inr ht)) (hs₁ (by omega))
    · cases h

/-- No program can make money or lose it. What a machine has and what it has paid is at all times
what it was given; no payment is empty. If nobody gives less than nothing, a machine is never in
debt, and in the block in which it finishes it keeps nothing. -/
theorem money_is_never_made_or_lost (container : Container) (creator : Address) (funding : Word)
    (height : UInt32) (ops : List Operation) (c : Chain)
    (h : (Chain.deploy container creator funding height).performAll ops = .ok c) :
    c.machine.balance.toInt + paid c.machine.payments = funding.toInt + total (mined ops) ∧
    (∀ p ∈ c.machine.payments, 0 < p.amount) ∧
    (0 ≤ funding → (∀ t ∈ transfers ops, 0 ≤ t.amount) →
      0 ≤ c.machine.balance ∧
      ∀ c', c.mine = .ok c' → c.machine.status ≠ .finished → c'.machine.status = .finished →
        c'.machine.balance = 0) := by
  obtain ⟨c₁, hb, rfl⟩ := (Chain.performAll_eq_ok rfl).mp h
  obtain ⟨hw, hp, hs⟩ := wealth_takeBlocks hb
  refine ⟨?_, ?_, ?_⟩
  · simpa [Machine.wealth, Chain.deploy, Machine.deploy, paid, mined] using hw
  · simpa [Machine.PaysPositive, Chain.deploy, Machine.deploy] using hp
  · intro hf hpos
    refine ⟨?_, ?_⟩
    · rw [Word.zero_le_iff] at hf ⊢
      exact hs (fun t ht => Word.zero_le_iff.mp (hpos t (mem_transfers_of_mem_mined ht))) hf
    · intro c' hmine hne hfin
      rw [Chain.mine_eq_takeBlock] at hmine
      exact (wealth_takeBlock hmine).2.2.2 hne hfin

set_option maxRecDepth 4000 in
/-- A program that only finishes: the five units of its creator and the three of a donor go to the
creator. -/
theorem money_is_never_made_or_lost_by_finish :
    ∃ c, (Chain.deploy ⟨⟨2, 0, 1, 0, 0, 0, 0⟩, [0x28], []⟩
        ⟨.account, .replicate 20 1⟩ 5 100).performAll
        [.pay ⟨.account, .replicate 20 2⟩ 3, .mine] = .ok c ∧
      c.machine.payments = #[⟨⟨.account, .replicate 20 1⟩, 8, 101⟩] ∧
      c.machine.balance.toInt + paid c.machine.payments = 5 + 3 := by
  refine ⟨_, rfl, rfl, ?_⟩
  exact (money_is_never_made_or_lost ⟨⟨2, 0, 1, 0, 0, 0, 0⟩, [0x28], []⟩
    ⟨.account, .replicate 20 1⟩ 5 100 [.pay ⟨.account, .replicate 20 2⟩ 3, .mine] _ rfl).1

end Pledge
