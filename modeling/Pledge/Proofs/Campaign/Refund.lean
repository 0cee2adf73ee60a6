-- The refund of a campaign that has missed its goal: a loop that finds one
-- transaction after the other and sends the payments before the deadline back.
import Pledge.Proofs.Campaign.Activation
import Pledge.Proofs.Order

namespace Pledge.Campaign

/-! ## What goes back -/

def paymentsOf (ts : List Transfer) : List Transfer := ts.filter (·.kind = .payment)

def messagesOf (ts : List Transfer) : List Transfer := ts.filter (·.kind = .message)

/-- What is sent back for transfers: each payment that is not empty, to its sender. -/
def refunds (height : UInt32) (ts : List Transfer) : List Payment :=
  ((paymentsOf ts).filter (0 < ·.amount)).map fun t => ⟨t.sender, t.amount, height⟩

/-- The instructions that the loop takes for a transaction before the deadline. -/
def turn : TxKind → Nat
  | .payment => 11
  | .message => 7

/-- The instructions that the loop takes for transactions before the deadline. -/
def turns (ts : List Transfer) : Nat := (ts.map (turn ·.kind)).sum

/-- The instructions from the last search to the end, when these transactions are too late. -/
def lastTurn (late : List Tx) : Nat := if late = [] then 4 else 6

theorem refunds_append (height : UInt32) (ts ts' : List Transfer) :
    refunds height (ts ++ ts') = refunds height ts ++ refunds height ts' := by
  simp [refunds, paymentsOf]

theorem total_paymentsOf_append (ts ts' : List Transfer) :
    total (paymentsOf (ts ++ ts')) = total (paymentsOf ts) + total (paymentsOf ts') := by
  simp [total, paymentsOf]

theorem total_paymentsOf_add_messagesOf (ts : List Transfer) :
    total (paymentsOf ts) + total (messagesOf ts) = total ts := by
  induction ts with
  | nil => rfl
  | cons t ts ih =>
    simp only [total, paymentsOf, messagesOf] at ih ⊢
    cases hkind : t.kind with
    | payment => simp [hkind] at ih ⊢; omega
    | message => simp [hkind] at ih ⊢; omega

/-- What goes back to no sender is not negative, and neither is what goes back. -/
theorem total_kinds_nonneg {ts : List Transfer} (h : ∀ t ∈ ts, 0 ≤ t.amount.toInt) :
    0 ≤ total (paymentsOf ts) ∧ 0 ≤ total (messagesOf ts) :=
  ⟨total_nonneg fun t ht => h t (List.mem_filter.mp ht).1,
    total_nonneg fun t ht => h t (List.mem_filter.mp ht).1⟩

theorem total_paymentsOf_map_nonneg {txs : List Tx} (h : ∀ t ∈ txs, 0 ≤ t.amount.toInt) :
    0 ≤ total (paymentsOf (txs.map Tx.toTransfer)) := by
  refine (total_kinds_nonneg ?_).1
  intro t ht
  obtain ⟨t', ht', rfl⟩ := List.mem_map.mp ht
  exact h t' ht'

theorem total_paymentsOf_payment {t : Transfer} (hkind : t.kind = .payment) :
    total (paymentsOf [t]) = t.amount.toInt := by
  simp [total, paymentsOf, hkind]

theorem turns_eq (ts : List Transfer) :
    turns ts = 11 * (paymentsOf ts).length + 7 * (messagesOf ts).length := by
  induction ts with
  | nil => rfl
  | cons t ts ih =>
    simp only [turns, paymentsOf, messagesOf] at ih ⊢
    cases hkind : t.kind with
    | payment => simp [hkind, turn] at ih ⊢; omega
    | message => simp [hkind, turn] at ih ⊢; omega

/-- A payment is sent back unless it is empty. -/
theorem refunds_payment {height : UInt32} {t : Transfer} (hkind : t.kind = .payment)
    (h0 : 0 ≤ t.amount.toInt) : refunds height [t] = payout height t.sender t.amount := by
  unfold refunds payout
  by_cases hz : t.amount = 0
  · simp [paymentsOf, hkind, hz]
  · have hpos : 0 < t.amount.toInt := by
      have hne : t.amount.toInt ≠ 0 := by
        rw [← Int64.toInt_zero]
        exact fun h => hz (Int64.toInt_inj.mp h)
      omega
    simp [paymentsOf, hkind, hz, hpos]

theorem refunds_message {height : UInt32} {t : Transfer} (hkind : t.kind = .message) :
    refunds height [t] = [] := by
  simp [refunds, paymentsOf, hkind]

/-! ## One turn -/

variable {awardee creator : Address} {deadline cursor : Word} {v : Var → Word} {m : Machine}
  {view : View} {tx : Tx} {n : Nat}

/-- The loop finds a transaction and moves its cursor there. -/
theorem steps_find (h : Running awardee v 89 m) (hn : n + 1 < 2 ^ 63)
    (hsearch : Exec.searchResult view (v .cursor) = Exec.numbered (n + 1))
    (htx : view.txs[n]? = some tx) :
    Steps view 4 m (goOn { m with a := Exec.numbered (n + 1) } awardee
      (Function.update (Function.update v .exhausted 0) .cursor tx.timestamp) 117) := by
  let m₁ := { m with a := Exec.numbered (n + 1) }
  let v₁ := Function.update v .exhausted 0
  have h₁ : Running awardee v 96 (goOn m₁ awardee v 96) := ⟨h.code, rfl, h.handler, rfl⟩
  have hfind : Exec.call view .findTxAfter [v .cursor] m = .ok 0 m₁ := by
    rw [Exec.call_findTxAfter, hsearch]
  have hzero : Exec.call view (.isZero .a) [] (goOn m₁ awardee v 96) =
      .ok 0 (goOn m₁ awardee v 96) := by
    show EStateM.Result.ok (Exec.truth (Exec.numbered (n + 1) == Exec.zeroQuad)) _ = _
    rw [Exec.numbered_ne_zero hn]
    rfl
  have hread : Exec.call view .txTimestamp [] (goOn m₁ awardee v₁ 110) =
      .ok tx.timestamp (goOn m₁ awardee v₁ 110) :=
    Exec.fromTx_eq (Exec.txInA?_numbered hn rfl htx)
  have s₁ : Steps view 1 m (goOn m₁ awardee v 96) := .single (h.step_tell rfl hfind rfl)
  have s₂ : Steps view 2 m (goOn m₁ awardee v₁ 103) := s₁.next (h₁.step_ask rfl hzero)
  have s₃ : Steps view 3 m (goOn m₁ awardee v₁ 110) :=
    s₂.next ((h₁.goOn v₁ 103).step_zero rfl rfl rfl)
  exact s₃.next ((h₁.goOn v₁ 110).step_ask rfl hread)

theorem call_txSender (h : Exec.txInA? view m = some tx) :
    Exec.call view .txSender [] m = .ok 0 { m with b := tx.sender.toWords } := by
  show EStateM.Result.ok (0 : Word)
    { m with b := (Exec.txInA? view m).elim Exec.zeroQuad (·.sender.toWords) } = _
  rw [h]
  rfl

theorem call_pay {recipient : Address} (hb : m.b = recipient.toWords) (amount : Word) :
    Exec.call view .pay [amount] m = (Exec.pay view recipient amount >>= fun _ => pure 0) m := by
  show (Exec.addressInB >>= fun r => Exec.pay view r amount >>= fun _ => pure 0) m = _
  rw [Exec.bind_of_ok (addressInB_toWords hb)]

theorem call_pay_of_le {recipient : Address} {amount : Word} (hb : m.b = recipient.toWords)
    (h0 : 0 ≤ amount.toInt) (hle : amount.toInt ≤ m.balance.toInt) :
    Exec.call view .pay [amount] m = .ok 0 (spend m view.height recipient amount) := by
  have hpay : Exec.pay view recipient amount m =
      .ok () (spend m view.height recipient amount) := by
    unfold Exec.pay
    rw [pay_of_le h0 hle]
  rw [call_pay hb, Exec.bind_of_ok hpay]
  rfl

/-- A message is left alone. -/
theorem steps_message (h : Running awardee v 128 m) (htx : Exec.txInA? view m = some tx)
    (hkind : tx.kind = .message) (hpayment : v .paymentKind = TxKind.payment.word) :
    Steps view 2 m (goOn m awardee (Function.update v .txKind tx.kind.word) 89) := by
  let v₁ := Function.update v .txKind tx.kind.word
  have hne : Comparison.ne.holds (v₁ .txKind) (v₁ .paymentKind) = true := by
    show (tx.kind.word != v .paymentKind) = true
    rw [hkind, hpayment]
    rfl
  have s₁ : Steps view 1 m (goOn m awardee v₁ 135) :=
    .single (h.step_ask rfl (Exec.fromTx_eq htx))
  exact s₁.next ((h.goOn v₁ 135).step_taken rfl hne rfl)

/-- The amount of a payment is noted, and its sender comes into register B. -/
theorem steps_load (h : Running awardee v 128 m) (htx : Exec.txInA? view m = some tx)
    (hkind : tx.kind = .payment) (hpayment : v .paymentKind = TxKind.payment.word) :
    Steps view 4 m (goOn { m with b := tx.sender.toWords } awardee
      (Function.update (Function.update v .txKind tx.kind.word) .paymentAmount tx.amount)
      155) := by
  let v₁ := Function.update v .txKind tx.kind.word
  let v₂ := Function.update v₁ .paymentAmount tx.amount
  let m₁ := { m with b := tx.sender.toWords }
  have heq : Comparison.ne.holds (v₁ .txKind) (v₁ .paymentKind) = false := by
    show (tx.kind.word != v .paymentKind) = false
    rw [hkind, hpayment]
    rfl
  have hsender : Exec.call view .txSender [] (goOn m awardee v₂ 152) =
      .ok 0 (goOn m₁ awardee v₂ 152) :=
    call_txSender htx
  have s₁ : Steps view 1 m (goOn m awardee v₁ 135) :=
    .single (h.step_ask rfl (Exec.fromTx_eq htx))
  have s₂ : Steps view 2 m (goOn m awardee v₁ 145) :=
    s₁.next ((h.goOn v₁ 135).step_passed rfl heq)
  have s₃ : Steps view 3 m (goOn m awardee v₂ 152) :=
    s₂.next ((h.goOn v₁ 145).step_ask rfl (Exec.fromTx_eq htx))
  have hload := (h.goOn v₂ 152).step_do rfl hsender rfl
  exact s₃.next hload

theorem step_payBack {recipient : Address} (h : Running awardee v 155 m)
    (hb : m.b = recipient.toWords) (h0 : 0 ≤ (v .paymentAmount).toInt)
    (hle : (v .paymentAmount).toInt ≤ m.balance.toInt) :
    Exec.step view m = .ok .next
      (goOn (spend m view.height recipient (v .paymentAmount)) awardee v 162) :=
  h.step_tell rfl (call_pay_of_le hb h0 hle) rfl

/-! ## The loop -/

/-- The loop is at a position: its cursor is at `cursor`, it has `balance` left and has made
`payments`. -/
structure Refunding (awardee creator : Address) (deadline : Word) (position : Nat) (cursor : Word)
    (balance : Int) (payments : List Payment) (m : Machine) : Prop where
  running : ∃ v, Running awardee v position m ∧ v .cursor = cursor ∧ v .deadline = deadline ∧
    v .paymentKind = TxKind.payment.word
  creator : m.creator = creator
  balance : m.balance.toInt = balance
  payments : m.payments.toList = payments

variable {before after : List Tx} {last : Tx} {balance : Int} {payments : List Payment}

/-- The loop goes from one transaction to the next. -/
theorem steps_next (hord : InOrder view.txs.toList) (hsize : view.txs.size < 2 ^ 63)
    (htxs : view.txs.toList = before ++ last :: tx :: after)
    (h : Refunding awardee creator deadline 89 last.timestamp balance payments m) :
    ∃ m', Steps view 4 m m' ∧ Exec.txInA? view m' = some tx ∧
      Refunding awardee creator deadline 117 tx.timestamp balance payments m' := by
  obtain ⟨v, hrun, hcursor, hdeadline, hpayment⟩ := h.running
  have hlen : before.length + 2 ≤ view.txs.size := by
    have := congrArg List.length htxs
    simp at this
    omega
  have hget : view.txs[before.length + 1]? = some tx := by
    rw [← Array.getElem?_toList, htxs]
    simp
  have hsearch := Exec.searchResult_next hord htxs
  rw [← hcursor] at hsearch
  refine ⟨_, steps_find hrun (by omega) hsearch hget, Exec.txInA?_numbered (by omega) rfl hget, ?_⟩
  exact ⟨⟨_, ⟨hrun.code, rfl, hrun.handler, rfl⟩, rfl, hdeadline, hpayment⟩, h.creator, h.balance,
    h.payments⟩

/-- The transaction is before the deadline, so the loop looks at it. -/
theorem steps_early (hord : InOrder view.txs.toList) (hsize : view.txs.size < 2 ^ 63)
    (htxs : view.txs.toList = before ++ last :: tx :: after)
    (h : Refunding awardee creator deadline 89 last.timestamp balance payments m)
    (hearly : tx.timestamp < deadline) :
    ∃ m', Steps view 5 m m' ∧ Exec.txInA? view m' = some tx ∧
      Refunding awardee creator deadline 128 tx.timestamp balance payments m' := by
  obtain ⟨m₁, s₁, hin, h₁⟩ := steps_next hord hsize htxs h
  obtain ⟨v, hrun, hcursor, hdeadline, hpayment⟩ := h₁.running
  have hlt : Comparison.lt.holds (v .cursor) (v .deadline) = true := by
    rw [hcursor, hdeadline]
    exact decide_eq_true hearly
  refine ⟨_, s₁.next (hrun.step_taken rfl hlt rfl), hin, ?_⟩
  exact ⟨⟨v, hrun.goOn v 128, hcursor, hdeadline, hpayment⟩, h₁.creator, h₁.balance, h₁.payments⟩

/-- A payment goes back to its sender. -/
theorem steps_payment (hord : InOrder view.txs.toList) (hsize : view.txs.size < 2 ^ 63)
    (htxs : view.txs.toList = before ++ last :: tx :: after)
    (h : Refunding awardee creator deadline 89 last.timestamp balance payments m)
    (hearly : tx.timestamp < deadline) (hkind : tx.kind = .payment) (h0 : 0 ≤ tx.amount.toInt)
    (hle : tx.amount.toInt ≤ balance) :
    ∃ m', Steps view 10 m m' ∧
      Refunding awardee creator deadline 162 tx.timestamp (balance - tx.amount.toInt)
        (payments ++ refunds view.height [tx.toTransfer]) m' := by
  obtain ⟨m₁, s₁, hin, h₁⟩ := steps_early hord hsize htxs h hearly
  obtain ⟨v, hrun, hcursor, hdeadline, hpayment⟩ := h₁.running
  have hhas : tx.amount.toInt ≤ m₁.balance.toInt := by
    rw [h₁.balance]
    exact hle
  have hsub : (m₁.balance - tx.amount).toInt = m₁.balance.toInt - tx.amount.toInt :=
    Word.toInt_sub (Word.fits_of_le (by omega) (by omega) m₁.balance.toInt_lt)
  have s₂ := s₁.trans (steps_load hrun hin hkind hpayment)
  refine ⟨_, s₂.next (step_payBack ⟨hrun.code, rfl, hrun.handler, rfl⟩ rfl h0 hhas),
    ⟨_, ⟨hrun.code, rfl, hrun.handler, rfl⟩, hcursor, hdeadline, hpayment⟩, h₁.creator, ?_, ?_⟩
  · rw [← h₁.balance]
    exact hsub
  · rw [refunds_payment hkind h0, ← h₁.payments]
    exact Array.toList_append

/-- One turn of the loop. -/
theorem steps_turn (hord : InOrder view.txs.toList) (hsize : view.txs.size < 2 ^ 63)
    (htxs : view.txs.toList = before ++ last :: tx :: after)
    (h : Refunding awardee creator deadline 89 last.timestamp balance payments m)
    (hearly : tx.timestamp < deadline) (h0 : 0 ≤ tx.amount.toInt)
    (hle : total (paymentsOf [tx.toTransfer]) ≤ balance) :
    ∃ m', Steps view (turn tx.kind) m m' ∧
      Refunding awardee creator deadline 89 tx.timestamp
        (balance - total (paymentsOf [tx.toTransfer]))
        (payments ++ refunds view.height [tx.toTransfer]) m' := by
  cases hkind : tx.kind with
  | payment =>
    rw [total_paymentsOf_payment hkind] at hle ⊢
    obtain ⟨m₁, s₁, h₁⟩ := steps_payment hord hsize htxs h hearly hkind h0 hle
    obtain ⟨v, hrun, hcursor, hdeadline, hpayment⟩ := h₁.running
    exact ⟨_, s₁.next (hrun.step rfl),
      ⟨v, ⟨hrun.code, hrun.data, hrun.handler, rfl⟩, hcursor, hdeadline, hpayment⟩, h₁.creator,
      h₁.balance, h₁.payments⟩
  | message =>
    obtain ⟨m₁, s₁, hin, h₁⟩ := steps_early hord hsize htxs h hearly
    obtain ⟨v, hrun, hcursor, hdeadline, hpayment⟩ := h₁.running
    have hnone : total (paymentsOf [tx.toTransfer]) = 0 := by
      simp [total, paymentsOf, hkind]
    rw [hnone, Int.sub_zero, refunds_message hkind, List.append_nil]
    exact ⟨_, s₁.trans (steps_message hrun hin hkind hpayment),
      ⟨_, ⟨hrun.code, rfl, hrun.handler, rfl⟩, hcursor, hdeadline, hpayment⟩, h₁.creator,
      h₁.balance, h₁.payments⟩

/-- The turns of the loop for all transactions before the deadline, by induction on them. -/
theorem steps_turns {early late : List Tx} (hord : InOrder view.txs.toList)
    (hsize : view.txs.size < 2 ^ 63) (htxs : view.txs.toList = before ++ last :: (early ++ late))
    (h : Refunding awardee creator deadline 89 last.timestamp balance payments m)
    (hearly : ∀ t ∈ early, t.timestamp < deadline) (h0 : ∀ t ∈ early, 0 ≤ t.amount.toInt)
    (hle : total (paymentsOf (early.map Tx.toTransfer)) ≤ balance) :
    ∃ before' last' m', view.txs.toList = before' ++ last' :: late ∧
      Steps view (turns (early.map Tx.toTransfer)) m m' ∧
      Refunding awardee creator deadline 89 last'.timestamp
        (balance - total (paymentsOf (early.map Tx.toTransfer)))
        (payments ++ refunds view.height (early.map Tx.toTransfer)) m' := by
  induction early generalizing before last balance payments m with
  | nil =>
    refine ⟨before, last, m, htxs, .none m, ?_⟩
    simpa [paymentsOf, refunds, total] using h
  | cons tx early ih =>
    have hsplit : (tx :: early).map Tx.toTransfer =
        [tx.toTransfer] ++ early.map Tx.toTransfer := rfl
    have hrest : 0 ≤ total (paymentsOf (early.map Tx.toTransfer)) :=
      total_paymentsOf_map_nonneg fun t ht => h0 t (by simp [ht])
    rw [hsplit, total_paymentsOf_append] at hle
    -- The turn of `tx` leaves the cursor there, so the rest is a loop that starts from `tx`.
    obtain ⟨m₁, s₁, h₁⟩ := steps_turn hord hsize htxs h (hearly tx (by simp)) (h0 tx (by simp))
      (by omega)
    have htxs₁ : view.txs.toList = (before ++ [last]) ++ tx :: (early ++ late) := by simp [htxs]
    obtain ⟨before', last', m', htxs', s₂, h₂⟩ := ih htxs₁ h₁
      (fun t ht => hearly t (by simp [ht])) (fun t ht => h0 t (by simp [ht])) (by omega)
    refine ⟨before', last', m', htxs', s₁.trans s₂, ?_⟩
    rw [hsplit, total_paymentsOf_append, refunds_append, ← List.append_assoc]
    rw [Int.sub_sub] at h₂
    exact h₂

/-! ## The end -/

/-- Without another transaction the loop ends. -/
theorem steps_exhausted (h : Running awardee v 89 m)
    (hsearch : Exec.searchResult view (v .cursor) = Exec.zeroQuad) :
    Steps view 3 m (goOn { m with a := Exec.zeroQuad } awardee (Function.update v .exhausted 1)
      109) := by
  let m₁ := { m with a := Exec.zeroQuad }
  let v₁ := Function.update v .exhausted 1
  have h₁ : Running awardee v 96 (goOn m₁ awardee v 96) := ⟨h.code, rfl, h.handler, rfl⟩
  have hfind : Exec.call view .findTxAfter [v .cursor] m = .ok 0 m₁ := by
    rw [Exec.call_findTxAfter, hsearch]
  have s₁ : Steps view 1 m (goOn m₁ awardee v 96) := .single (h.step_tell rfl hfind rfl)
  have s₂ : Steps view 2 m (goOn m₁ awardee v₁ 103) := s₁.next (h₁.step_ask rfl rfl)
  exact s₂.next ((h₁.goOn v₁ 103).step_nonzero rfl (by simp [v₁]))

/-- The loop ends at a transaction that is too late, or when there is none. -/
theorem steps_last {late : List Tx} (hord : InOrder view.txs.toList)
    (hsize : view.txs.size < 2 ^ 63) (htxs : view.txs.toList = before ++ last :: late)
    (h : Refunding awardee creator deadline 89 last.timestamp balance payments m)
    (hlate : ∀ t ∈ late, ¬ t.timestamp < deadline) :
    ∃ n position cursor m', n + 1 = lastTurn late ∧ Steps view n m m' ∧
      listing.lookup position = some .finish ∧ 88 ≤ position ∧
      Refunding awardee creator deadline position cursor balance payments m' := by
  cases late with
  | nil =>
    obtain ⟨v, hrun, hcursor, hdeadline, hpayment⟩ := h.running
    have hsearch := Exec.searchResult_last hord htxs
    rw [← hcursor] at hsearch
    refine ⟨3, 109, v .cursor, _, rfl, steps_exhausted hrun hsearch, rfl, by decide, ?_⟩
    exact ⟨⟨_, ⟨hrun.code, rfl, hrun.handler, rfl⟩, rfl, hdeadline, hpayment⟩, h.creator,
      h.balance, h.payments⟩
  | cons tx late =>
    obtain ⟨m₁, s₁, _, h₁⟩ := steps_next hord hsize htxs h
    obtain ⟨v, hrun, hcursor, hdeadline, hpayment⟩ := h₁.running
    have hge : Comparison.lt.holds (v .cursor) (v .deadline) = false := by
      rw [hcursor, hdeadline]
      exact decide_eq_false (hlate tx (by simp))
    refine ⟨5, 127, tx.timestamp, _, rfl, s₁.next (hrun.step_passed rfl hge), rfl, by decide, ?_⟩
    exact ⟨⟨_, hrun.goOn v 127, hcursor, hdeadline, hpayment⟩, h₁.creator, h₁.balance, h₁.payments⟩

/-- The goal is missed, so the loop begins. -/
theorem steps_begin (view : View) (h : Running awardee v 56 m) (hgoal : m.balance < v .goalAmount)
    (hpayment : v .paymentKind = TxKind.payment.word) :
    ∃ m', Steps view 3 m m' ∧
      Refunding awardee m.creator (v .deadline) 89 (v .cursor) m.balance.toInt m.payments.toList
        m' := by
  let v₁ := Function.update v .finalBalance m.balance
  let m₁ := { goOn m awardee v₁ 89 with restart := 89 }
  have h₁ : Running awardee v₁ 89 m₁ := ⟨h.code, rfl, h.handler, rfl⟩
  have s₁ : Steps view 1 m (goOn m awardee v₁ 63) := .single (h.step_ask rfl rfl)
  have s₂ : Steps view 2 m (goOn m awardee v₁ 88) :=
    s₁.next ((h.goOn v₁ 63).step_taken rfl (decide_eq_true hgoal) rfl)
  exact ⟨m₁, s₂.next ((h.goOn v₁ 88).step rfl), ⟨v₁, h₁, rfl, rfl, hpayment⟩, rfl, rfl, rfl⟩

/-- The instructions of a refund, up to the one that finishes. -/
theorem steps_refund {first : Tx} {early late : List Tx} (h : Running awardee v 56 m)
    (hgoal : m.balance < v .goalAmount) (hpayment : v .paymentKind = TxKind.payment.word)
    (hcursor : v .cursor = first.timestamp) (hord : InOrder view.txs.toList)
    (hsize : view.txs.size < 2 ^ 63) (htxs : view.txs.toList = first :: (early ++ late))
    (hearly : ∀ t ∈ early, t.timestamp < v .deadline)
    (hlate : ∀ t ∈ late, ¬ t.timestamp < v .deadline)
    (h0 : ∀ t ∈ early, 0 ≤ t.amount.toInt)
    (hle : total (paymentsOf (early.map Tx.toTransfer)) ≤ m.balance.toInt) :
    ∃ n position cursor m', n + 1 = 3 + turns (early.map Tx.toTransfer) + lastTurn late ∧
      Steps view n m m' ∧ listing.lookup position = some .finish ∧ 88 ≤ position ∧
      Refunding awardee m.creator (v .deadline) position cursor
        (m.balance.toInt - total (paymentsOf (early.map Tx.toTransfer)))
        (m.payments.toList ++ refunds view.height (early.map Tx.toTransfer)) m' := by
  obtain ⟨m₁, s₁, h₁⟩ := steps_begin view h hgoal hpayment
  rw [hcursor] at h₁
  have htxs₁ : view.txs.toList = [] ++ first :: (early ++ late) := htxs
  obtain ⟨before, last, m₂, htxs₂, s₂, h₂⟩ := steps_turns hord hsize htxs₁ h₁ hearly h0 hle
  obtain ⟨n, position, cursor, m', hn, s₃, hfin, hpos, h'⟩ := steps_last hord hsize htxs₂ h₂ hlate
  exact ⟨_, position, cursor, m', by omega, (s₁.trans s₂).trans s₃, hfin, hpos, h'⟩

/-- The end of a refund: the creator gets the rest. -/
theorem finish_refund (view : View) {position : Nat}
    (hfin : listing.lookup position = some .finish)
    (h : Refunding awardee creator deadline position cursor balance payments m)
    (hbalance : 0 ≤ balance) :
    Exec.step view m = .ok .finish m ∧ ∃ m', m.finish view = .ok m' ∧ m'.pc = position ∧
      Settled (payments ++ payout view.height creator (Int64.ofInt balance)) m' := by
  obtain ⟨v, hrun, _⟩ := h.running
  obtain ⟨m', hm', hpc, hsettled⟩ := finish_of_nonneg (m := m) view
    (by rw [h.balance]; exact hbalance)
  refine ⟨hrun.step_finish hfin, m', hm', hpc.trans hrun.pc, ?_⟩
  rw [h.payments, h.creator, ← Int64.ofInt_toInt m.balance, h.balance] at hsettled
  exact hsettled

end Pledge.Campaign
