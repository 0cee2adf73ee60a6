-- The activations of a campaign. The first one puts it to sleep until its
-- window is over. The second one pays the awardee, or goes through the
-- transactions of the window and sends every payment back.
import Pledge.Proofs.Campaign.Program
import Pledge.Proofs.History
import Pledge.Proofs.Minutes

namespace Pledge.Campaign

variable {awardee : Address} {v : Var → Word} {m : Machine} {view : View}

/-! ## To sleep -/

/-- The variables of a campaign that sleeps until the block of height `wake`. -/
def waiting (v : Var → Word) (created : Word) (wake : Nat) : Var → Word :=
  Function.update
    (Function.update (Function.update v .cursor created) .deadline
      (timestamp (UInt32.ofNat wake) 0))
    .wakeHeight (Int64.ofNat wake)

/-- The deadline is moved by the window. -/
theorem step_addWindow {t : Word} (h : Running awardee v 14 m)
    (ht : Exec.movedTimestamp (v .deadline) (v .windowMinutes) m = .ok t m) :
    Exec.step view m = .ok .next (goOn m awardee (Function.update v .deadline t) 29) := by
  rw [← Exec.call_addMinutes view] at ht
  rw [h.step rfl]
  exact Exec.execute_callInto (h.argumentWords_two .deadline .windowMinutes) ht
    (h.store .deadline t)

theorem step_addWindow_error {e : Halt} (h : Running awardee v 14 m)
    (ht : Exec.movedTimestamp (v .deadline) (v .windowMinutes) m = .error e m) :
    Exec.step view m = .error e m := by
  rw [← Exec.call_addMinutes view] at ht
  rw [h.step rfl]
  exact Exec.execute_callInto_of_error (h.argumentWords_two .deadline .windowMinutes) ht

/-- The height to wake at begins as the deadline. -/
theorem step_copy (h : Running awardee v 29 m) :
    Exec.step view m = .ok .next
      (goOn m awardee (Function.update v .wakeHeight (v .deadline)) 38) := by
  rw [h.step rfl]
  exact Exec.execute_copy (h.load .deadline) (h.store .wakeHeight _)

/-- The height to wake at is the height of the deadline. -/
theorem step_shift {wake : Nat} (h : Running awardee v 38 m)
    (ht : v .wakeHeight = timestamp (UInt32.ofNat wake) 0) (hlt : wake < 2 ^ 32) :
    Exec.step view m = .ok .next
      (goOn m awardee (Function.update v .wakeHeight (Int64.ofNat wake)) 51) := by
  have hop : ImmediateOp.shr.binary.apply (v .wakeHeight) 32 = some (Int64.ofNat wake) := by
    have hshr := shr_timestamp (UInt32.ofNat wake) 0
    rw [UInt32.toNat_ofNat_of_lt' hlt] at hshr
    rw [ht]
    exact hshr
  rw [h.step rfl]
  exact Exec.execute_immediate (h.load .wakeHeight) hop (h.store .wakeHeight _)

theorem step_sleep {wake : Nat} (h : Running awardee v 51 m)
    (ht : v .wakeHeight = Int64.ofNat wake) (hlt : wake < 2 ^ 32) :
    Exec.step view m = .ok (.sleep (UInt32.ofNat wake)) (goOn m awardee v 56) := by
  rw [h.goOn_eq, h.step rfl]
  exact Exec.execute_sleepUntil (h.load .wakeHeight) (by rw [ht]; exact toUInt32?_ofNat hlt)

/-- The first activation works out when the window is over and sleeps until then. -/
theorem run_first {wake : Nat} (h : Running awardee v 0 m)
    (hheight : view.height.toNat < 2 ^ 31)
    (hwake : (wake : Int) = view.height.toNat + (v .windowMinutes).toInt) (hlt : wake < 2 ^ 32) :
    m.run view = .ok { goOn m awardee (waiting v m.created wake) 56 with
      status := .sleeping (UInt32.ofNat wake) } := by
  let v₁ := Function.update v .cursor m.created
  let v₂ := Function.update v₁ .deadline (timestamp view.height 0)
  let v₃ := Function.update v₂ .deadline (timestamp (UInt32.ofNat wake) 0)
  let v₄ := Function.update v₃ .wakeHeight (timestamp (UInt32.ofNat wake) 0)
  let v₅ := Function.update v₄ .wakeHeight (Int64.ofNat wake)
  have hv₅ : v₅ = waiting v m.created wake := by
    simp only [v₅, v₄, v₃, v₂, v₁, Function.update_idem]
    rfl
  have s₁ : Steps view 1 m (goOn m awardee v₁ 7) := .single (h.step_ask rfl rfl)
  have s₂ : Steps view 2 m (goOn m awardee v₂ 14) := s₁.next ((h.goOn v₁ 7).step_ask rfl rfl)
  have s₃ : Steps view 3 m (goOn m awardee v₃ 29) :=
    s₂.next (step_addWindow (h.goOn v₂ 14) (Exec.movedTimestamp_of_lt hheight hwake hlt))
  have s₄ : Steps view 4 m (goOn m awardee v₄ 38) := s₃.next (step_copy (h.goOn v₃ 29))
  have s₅ : Steps view 5 m (goOn m awardee v₅ 51) := s₄.next (step_shift (h.goOn v₄ 38) rfl hlt)
  rw [s₅.run_sleep (step_sleep (h.goOn v₅ 51) rfl hlt) (by decide), goOn_goOn, hv₅]

/-! ## Payments by the machine -/

/-- What a machine pays for an amount that it has: for nothing, nothing. -/
def payout (height : UInt32) (recipient : Address) (amount : Word) : List Payment :=
  if amount = 0 then [] else [⟨recipient, amount, height⟩]

/-- The machine that has paid an amount out of its balance. -/
def spend (m : Machine) (height : UInt32) (recipient : Address) (amount : Word) : Machine :=
  { m with
    balance := m.balance - amount
    payments := m.payments ++ (payout height recipient amount).toArray }

theorem pay_of_le {height : UInt32} {recipient : Address} {amount : Word}
    (h0 : 0 ≤ amount.toInt) (hle : amount.toInt ≤ m.balance.toInt) :
    m.pay height recipient amount = .ok (spend m height recipient amount) := by
  have hbalance : ¬ m.balance < 0 := by rw [Int64.lt_iff_toInt_lt, Int64.toInt_zero]; omega
  have hamount : ¬ amount < 0 := by rw [Int64.lt_iff_toInt_lt, Int64.toInt_zero]; omega
  have hless : ¬ m.balance < amount := by rw [Int64.lt_iff_toInt_lt]; omega
  have hpayable : Machine.payable m.balance amount = amount := by
    rw [Machine.payable, if_neg hamount, if_neg hless]
  unfold Machine.pay spend payout
  rw [if_neg hbalance, hpayable]
  by_cases hz : amount = 0
  · subst hz
    simp
  · simp [hz]

/-- The campaign is over: it has made these payments and has nothing left. -/
structure Settled (payments : List Payment) (m : Machine) : Prop where
  status : m.status = .finished
  balance : m.balance = 0
  payments : m.payments.toList = payments

/-- A machine that finishes pays the rest to its creator. -/
theorem finish_of_nonneg (view : View) (h : 0 ≤ m.balance.toInt) :
    ∃ m', m.finish view = .ok m' ∧ m'.pc = m.pc ∧
      Settled (m.payments.toList ++ payout view.height m.creator m.balance) m' := by
  refine ⟨{ spend m view.height m.creator m.balance with status := .finished }, ?_, rfl, ?_⟩
  · unfold Machine.finish
    rw [pay_of_le h (Int.le_refl _)]
    rfl
  · exact ⟨rfl, Int64.sub_self m.balance, by simp [spend]⟩

/-! ## The award -/

/-- The awardee stands in the data after the variables. -/
theorem loadQuad_awardee {position : Nat} (h : Running awardee v position m) :
    Exec.loadQuad 10 m = .ok awardee.toWords m := by
  have hload {i : Nat} {w : Word} (hi : (memory awardee v)[i]? = some w) :
      Exec.load i m = .ok w m := by
    unfold Exec.load
    rw [h.data, hi]
  show (Exec.load 10 >>= fun w0 => Exec.load 11 >>= fun w1 => Exec.load 12 >>= fun w2 =>
    Exec.load 13 >>= fun w3 => pure #v[w0, w1, w2, w3]) m = _
  rw [Exec.bind_of_ok (hload rfl), Exec.bind_of_ok (hload rfl), Exec.bind_of_ok (hload rfl),
    Exec.bind_of_ok (hload rfl)]
  exact congrArg (fun q => EStateM.Result.ok q m) awardee.toWords.mk_words

theorem addressInB_toWords {address : Address} (h : m.b = address.toWords) :
    Exec.addressInB m = .ok address m := by
  unfold Exec.addressInB
  rw [h, Address.ofWords_toWords]

theorem step_loadAwardee (h : Running awardee v 73 m) :
    Exec.step view m = .ok .next (goOn { m with b := awardee.toWords } awardee v 84) := by
  have hc : Exec.call view (.loadRegister .b) [10] m =
      .ok 0 { m with b := awardee.toWords } := by
    show (Exec.loadQuad 10 >>= fun q => Exec.putRegister .b q >>= fun _ => pure 0) m = _
    rw [Exec.bind_of_ok (loadQuad_awardee h)]
    rfl
  rw [h.step rfl, goOn, ← h.data]
  exact Exec.execute_callValue hc

theorem call_payAll {recipient : Address} (hb : m.b = recipient.toWords) :
    Exec.call view .payAll [] m =
      (Exec.pay view recipient m.balance >>= fun _ => pure 0) m := by
  have hget : (get : Exec Machine) m = .ok m m := rfl
  show (Exec.addressInB >>= fun r => get >>= fun m => Exec.pay view r m.balance >>=
    fun _ => pure 0) m = _
  rw [Exec.bind_of_ok (addressInB_toWords hb), Exec.bind_of_ok hget]

theorem step_payAll {recipient : Address} (h : Running awardee v 84 m)
    (hb : m.b = recipient.toWords) (hpos : 0 ≤ m.balance.toInt) :
    Exec.step view m = .ok .next
      (goOn (spend m view.height recipient m.balance) awardee v 87) := by
  have hpay : Exec.pay view recipient m.balance m =
      .ok () (spend m view.height recipient m.balance) := by
    unfold Exec.pay
    rw [pay_of_le hpos (Int.le_refl _)]
  have hc : Exec.call view .payAll [] m = .ok 0 (spend m view.height recipient m.balance) := by
    rw [call_payAll hb, Exec.bind_of_ok hpay]
    rfl
  exact h.step_do rfl hc rfl

/-- A campaign that has reached its goal pays all of its balance to the awardee. -/
theorem run_award (view : View) (h : Running awardee v 56 m) (hgoal : ¬ m.balance < v .goalAmount)
    (hpos : 0 ≤ m.balance.toInt) :
    ∃ m', m.run view = .ok m' ∧ m'.pc = 87 ∧
      Settled (m.payments.toList ++ payout view.height awardee m.balance) m' := by
  let v₁ := Function.update v .finalBalance m.balance
  let m₁ := { m with b := awardee.toWords }
  have s₁ : Steps view 1 m (goOn m awardee v₁ 63) := .single (h.step_ask rfl rfl)
  have s₂ : Steps view 2 m (goOn m awardee v₁ 73) :=
    s₁.next ((h.goOn v₁ 63).step_passed rfl (decide_eq_false hgoal))
  have s₃ : Steps view 3 m (goOn m₁ awardee v₁ 84) := s₂.next (step_loadAwardee (h.goOn v₁ 73))
  have h₃ : Running awardee v₁ 84 (goOn m₁ awardee v₁ 84) := ⟨h.code, rfl, h.handler, rfl⟩
  let m₂ := spend m₁ view.height awardee m.balance
  have s₄ : Steps view 4 m (goOn m₂ awardee v₁ 87) := s₃.next (step_payAll h₃ rfl hpos)
  have h₄ : Running awardee v₁ 87 (goOn m₂ awardee v₁ 87) := ⟨h.code, rfl, h.handler, rfl⟩
  have hzero : (goOn m₂ awardee v₁ 87).balance = 0 := Int64.sub_self m.balance
  obtain ⟨m', hm', hpc, hs⟩ := finish_of_nonneg (m := goOn m₂ awardee v₁ 87) view
    (by rw [hzero]; decide)
  refine ⟨m', ?_, hpc, ?_⟩
  · rw [s₄.run_finish (h₄.step_finish rfl) (by decide), hm']
  · rw [hzero] at hs
    simpa [m₂, m₁, goOn, spend, payout] using hs

end Pledge.Campaign
