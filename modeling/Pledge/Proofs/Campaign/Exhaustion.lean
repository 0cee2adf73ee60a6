-- A refund that is cut off: what the loop has sent back after a number of
-- instructions, when there are more transactions than it has time for.
import Pledge.Proofs.Campaign.Refund
import Pledge.Proofs.Permanence

namespace Pledge.Campaign

/-! ## What goes back in time -/

/-- The transfers whose turn in the loop comes as far as the payment within a number of
instructions. -/
def within (budget : Nat) (ts : List Transfer) : List Transfer :=
  (ts.zipIdx.filter fun x => 10 + turns (ts.take x.2) ≤ budget).map (·.1)

theorem within_nil (budget : Nat) : within budget [] = [] := rfl

theorem within_zero (ts : List Transfer) : within 0 ts = [] := by
  simp [within]

/-- The first transfer takes its turn off the budget of the others. -/
theorem within_cons (budget : Nat) (t : Transfer) (ts : List Transfer) :
    within budget (t :: ts) =
      (if 10 ≤ budget then [t] else []) ++ within (budget - turn t.kind) ts := by
  have hturns (i : Nat) : turns ((t :: ts).take (i + 1)) = turn t.kind + turns (ts.take i) := by
    simp [turns]
  have hrest : (ts.zipIdx 1).filter (fun x => 10 + turns ((t :: ts).take x.2) ≤ budget) =
      (ts.zipIdx.filter fun x => 10 + turns (ts.take x.2) ≤ budget - turn t.kind).map
        (Prod.map id (· + 1)) := by
    rw [List.zipIdx_succ, List.filter_map]
    congr 1
    apply List.filter_congr
    intro x _
    simp only [Function.comp_apply, hturns, decide_eq_decide]
    omega
  unfold within
  rw [List.zipIdx_cons, List.filter_cons, hrest]
  by_cases h : 10 ≤ budget
  · simp [turns, h]
  · simp [turns, h]

/-- A turn that is within the budget sends back what it has to. -/
theorem refunds_within_cons {budget : Nat} {t : Transfer} (height : UInt32) (ts : List Transfer)
    (h : turn t.kind ≤ budget) :
    refunds height (within budget (t :: ts)) =
      refunds height [t] ++ refunds height (within (budget - turn t.kind) ts) := by
  rw [within_cons, refunds_append]
  congr 1
  cases hkind : t.kind with
  | payment =>
    rw [hkind, turn] at h
    rw [if_pos (by omega)]
  | message =>
    rw [refunds_message hkind]
    split
    · exact refunds_message hkind
    · rfl

/-- The same for turns in a row. -/
theorem refunds_within_append {budget : Nat} {ts : List Transfer} (height : UInt32)
    (ts' : List Transfer) (h : turns ts ≤ budget) :
    refunds height (within budget (ts ++ ts')) =
      refunds height ts ++ refunds height (within (budget - turns ts) ts') := by
  induction ts generalizing budget with
  | nil => rfl
  | cons t ts ih =>
    have hturns : turns (t :: ts) = turn t.kind + turns ts := by simp [turns]
    rw [hturns] at h ⊢
    rw [List.cons_append, refunds_within_cons height _ (by omega), ih (by omega), Nat.sub_sub,
      ← List.append_assoc, ← refunds_append, List.singleton_append]

/-! ## The instructions until then -/

variable {awardee creator : Address} {deadline : Word} {m m' : Machine} {view : View} {tx : Tx}
  {n k : Nat} {before after : List Tx} {last : Tx} {balance : Int} {payments : List Payment}

/-- A part of a turn. Of the eleven instructions for a payment the tenth one pays. -/
theorem steps_part (hord : InOrder view.txs.toList) (hsize : view.txs.size < 2 ^ 63)
    (htxs : view.txs.toList = before ++ last :: tx :: after)
    (h : Refunding awardee creator deadline 89 last.timestamp balance payments m)
    (hearly : tx.timestamp < deadline) (h0 : 0 ≤ tx.amount.toInt)
    (hle : total (paymentsOf [tx.toTransfer]) ≤ balance) (hk : k < turn tx.kind) :
    ∃ m', Steps view k m m' ∧ m'.payments.toList =
      payments ++ refunds view.height (within k [tx.toTransfer]) := by
  obtain ⟨m₁, s₁, hin, h₁⟩ := steps_early hord hsize htxs h hearly
  obtain ⟨v, hrun, _, _, hpayment⟩ := h₁.running
  have hstart : m₁.payments = m.payments := Array.toList_inj.mp (h₁.payments.trans h.payments.symm)
  have hnone : refunds view.height [] = [] := rfl
  rw [within_cons, within_nil, List.append_nil]
  cases hkind : tx.kind with
  | payment =>
    rw [hkind, turn] at hk
    by_cases hlast : 10 ≤ k
    · obtain rfl : k = 10 := by omega
      rw [total_paymentsOf_payment hkind] at hle
      obtain ⟨m', s', h'⟩ := steps_payment hord hsize htxs h hearly hkind h0 hle
      rw [if_pos hlast]
      exact ⟨m', s', h'.payments⟩
    · have s₂ := s₁.trans (steps_load hrun hin hkind hpayment)
      obtain ⟨m', s', hsame⟩ := s₂.payments_part hstart (show k ≤ 9 by omega)
      rw [if_neg hlast, hnone, List.append_nil, ← h.payments, ← hsame]
      exact ⟨m', s', rfl⟩
  | message =>
    rw [hkind, turn] at hk
    have s₂ := s₁.trans (steps_message hrun hin hkind hpayment)
    obtain ⟨m', s', hsame⟩ := s₂.payments_part hstart (show k ≤ 7 by omega)
    rw [if_neg (by omega), hnone, List.append_nil, ← h.payments, ← hsame]
    exact ⟨m', s', rfl⟩

/-- What the loop has sent back after a number of instructions, by induction on the transactions
before the deadline. -/
theorem steps_cut {early late : List Tx} (hord : InOrder view.txs.toList)
    (hsize : view.txs.size < 2 ^ 63) (htxs : view.txs.toList = before ++ last :: (early ++ late))
    (h : Refunding awardee creator deadline 89 last.timestamp balance payments m)
    (hearly : ∀ t ∈ early, t.timestamp < deadline) (hlate : ∀ t ∈ late, ¬ t.timestamp < deadline)
    (h0 : ∀ t ∈ early, 0 ≤ t.amount.toInt)
    (hle : total (paymentsOf (early.map Tx.toTransfer)) ≤ balance)
    (hk : k < turns (early.map Tx.toTransfer) + lastTurn late) :
    ∃ m', Steps view k m m' ∧ m'.payments.toList =
      payments ++ refunds view.height (within k (early.map Tx.toTransfer)) := by
  induction early generalizing before last balance payments m k with
  | nil =>
    have htxs₁ : view.txs.toList = before ++ last :: late := htxs
    obtain ⟨n, position, cursor, m₁, hn, s₁, _, _, h₁⟩ := steps_last hord hsize htxs₁ h hlate
    have hsame : m₁.payments = m.payments :=
      Array.toList_inj.mp (h₁.payments.trans h.payments.symm)
    simp only [List.map_nil, turns, List.sum_nil, Nat.zero_add] at hk
    obtain ⟨m', s', heq⟩ := s₁.payments_part hsame (show k ≤ n by omega)
    refine ⟨m', s', ?_⟩
    rw [heq, h.payments]
    simp [within, refunds, paymentsOf]
  | cons tx early ih =>
    have hrest : 0 ≤ total (paymentsOf (early.map Tx.toTransfer)) :=
      total_paymentsOf_map_nonneg fun t ht => h0 t (by simp [ht])
    have hsplit : (tx :: early).map Tx.toTransfer =
        [tx.toTransfer] ++ early.map Tx.toTransfer := rfl
    rw [hsplit, total_paymentsOf_append] at hle
    have hfirst := hearly tx (by simp)
    have hamount := h0 tx (by simp)
    by_cases hpart : k < turn tx.kind
    · -- The limit falls into the turn of `tx`, and nothing of the rest is reached.
      obtain ⟨m', s', hpayments⟩ :=
        steps_part hord hsize htxs h hfirst hamount (by omega) hpart
      refine ⟨m', s', ?_⟩
      rw [hpayments, List.map_cons, within_cons, within_cons, Nat.sub_eq_zero_of_le hpart.le,
        within_zero, within_zero]
    · obtain ⟨m₁, s₁, h₁⟩ := steps_turn hord hsize htxs h hfirst hamount (by omega)
      have htxs₁ : view.txs.toList = (before ++ [last]) ++ tx :: (early ++ late) := by simp [htxs]
      have hk₁ : k - turn tx.kind < turns (early.map Tx.toTransfer) + lastTurn late := by
        simp only [List.map_cons, turns, List.sum_cons] at hk ⊢
        omega
      obtain ⟨m', s', hpayments⟩ := ih htxs₁ h₁ (fun t ht => hearly t (by simp [ht]))
        (fun t ht => h0 t (by simp [ht])) (by omega) hk₁
      have s₂ := s₁.trans s'
      rw [Nat.add_sub_cancel' (Nat.le_of_not_lt hpart)] at s₂
      refine ⟨m', s₂, ?_⟩
      rw [hpayments, List.map_cons, refunds_within_cons view.height _ (Nat.le_of_not_lt hpart),
        List.append_assoc]

end Pledge.Campaign
