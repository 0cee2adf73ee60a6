-- The law of the limit, for every campaign and every history: with too many
-- donations the refund is cut off, and what has not gone back by then never
-- does.
import Pledge.Proofs.Campaign.Settlement
import Pledge.Proofs.Conservation

namespace Pledge.Campaign

/-- What a refund that is cut off has sent back, as numbers. The three instructions before the loop
and the ten up to the payment come on top of the turns before it. -/
theorem map_entry_refunds_within {height : Nat} (hheight : height < 2 ^ 32) (ts : List Transfer) :
    (refunds (UInt32.ofNat height) (within (Machine.stepLimit - 3) ts)).map entry =
      (ts.zipIdx.filter fun x => x.1.kind = .payment ∧ 0 < x.1.amount ∧
        13 + 11 * (paymentsOf (ts.take x.2)).length + 7 * (messagesOf (ts.take x.2)).length ≤
          100000).map fun x => (x.1.sender, x.1.amount.toInt, height) := by
  have hlimit : Machine.stepLimit = 100000 := rfl
  rw [map_entry_refunds hheight, within, paymentsOf, List.filter_map, List.filter_map,
    List.filter_filter, List.filter_filter, List.map_map]
  congr 1
  apply List.filter_congr
  intro x _
  have htime : 10 + turns (ts.take x.2) ≤ Machine.stepLimit - 3 ↔
      13 + 11 * (paymentsOf (ts.take x.2)).length + 7 * (messagesOf (ts.take x.2)).length ≤
        100000 := by
    rw [turns_eq]
    omega
  simp only [Function.comp_apply, htime, ← Bool.decide_and]
  rw [decide_eq_decide, and_assoc, and_left_comm]

theorem paid_eq (ps : Array Payment) : paid ps = ((ps.toList.map entry).map (·.2.1)).sum := by
  rw [paid, List.map_map]
  rfl

namespace Deployment

variable {d : Deployment} {ops : List Operation} {c : Chain}

/-- Whatever a campaign has paid when its closing block is mined, it has the rest of what it
raised. -/
theorem wealth_closing (hmined : (blocks ops).length = d.window + 1)
    (h : d.chain.takeBlocks (blocks ops) = .ok c) :
    c.machine.balance.toInt + paid c.machine.payments = d.raised ops := by
  have hwealth := (wealth_takeBlocks h).1
  have hstart : d.chain.machine.wealth = d.funding.toInt := by
    rw [machine_chain]
    simp [Machine.wealth, deployed, paid]
  have hblocks : (blocks ops).flatten = d.inWindow ops ++ d.inClosing ops := by
    have hlong : d.window < (blocks ops).length := by omega
    have hsplit := congrArg List.flatten (blocks_eq hlong)
    rw [List.drop_of_length_le (by omega)] at hsplit
    simpa [inWindow] using hsplit
  rw [hstart, hblocks, total_append] at hwealth
  rw [raised, Int.add_assoc]
  exact hwealth

/-! ## The law of the limit -/

/-- With too many donations the refund is cut off. If it needs more instructions than the limit, the
closing block leaves the campaign faulted: it has sent back, in order, the payments of the window
that come early enough, it has paid nothing to its creator, and the rest of what was raised is
locked, for it never pays again. -/
theorem the_limit_cuts_the_refund_off (d : Deployment) (ops : List Operation) (h : d.Sound ops)
    (hmined : (blocks ops).length = d.window + 1)
    (hgoal : d.raised ops < d.terms.goal.units.toInt) (hsteps : 100000 < d.refundSteps ops) :
    ∃ c, d.Reaches ops c ∧ c.machine.status = .faulted .stepLimit ∧
      c.machine.fault?.map Fault.message = some "step limit reached" ∧
      c.machine.payments.toList.map entry =
        ((d.inWindow ops).zipIdx.filter fun x => x.1.kind = .payment ∧ 0 < x.1.amount ∧
          13 + 11 * (paymentsOf ((d.inWindow ops).take x.2)).length +
            7 * (messagesOf ((d.inWindow ops).take x.2)).length ≤ 100000).map
          (fun x => (x.1.sender, x.1.amount.toInt, d.closing)) ∧
      c.machine.balance.toInt + paid c.machine.payments = d.raised ops ∧
      ∀ later c', c.performAll later = .ok c' →
        c'.machine.status = c.machine.status ∧ c'.machine.payments = c.machine.payments ∧
        c'.machine.balance.toInt =
          c.machine.balance.toInt + total (blocksFrom c.pending.toList later).flatten := by
  obtain ⟨c, hw, hblocks⟩ := woken_of_sound h (by omega)
  have hlimit : Machine.stepLimit <
      3 + turns (d.inWindow ops) + (if d.inClosing ops = [] then 4 else 6) := by
    rw [turns_eq, ← Nat.add_assoc]
    exact hsteps
  obtain ⟨m, hrun, hstatus, hpayments⟩ := hw.exhausted hgoal hlimit
  have htake := hblocks m hrun
  refine ⟨_, reaches_closing hmined htake, hstatus, ?_, ?_, ?_, ?_⟩
  · have hfault : m.fault? = some .stepLimit := by
      unfold Machine.fault?
      rw [hstatus]
    rw [Chain.machine_withPending, hfault]
    rfl
  · have hheight : d.closing < 2 ^ 32 := Nat.lt_trans hw.closing (by decide)
    rw [Chain.machine_withPending, hpayments]
    exact map_entry_refunds_within hheight _
  · rw [List.drop_of_length_le (by omega), Chain.takeBlocks] at htake
    have hwealth := wealth_closing hmined htake
    exact hwealth
  · intro later c' hlater
    have hdone : m.isDone = true := by simp [Machine.isDone, hstatus]
    obtain ⟨balance, hm, hbalance⟩ := Chain.machine_performAll_of_done hdone hlater
    rw [hm]
    exact ⟨rfl, rfl, hbalance⟩

/-! ## A crowd -/

/-- A donor gives one unit over and over, and then another one gives one unit. -/
def crowdBlock (n : Nat) : Block :=
  .replicate n ⟨.payment, ⟨.account, .replicate 20 3⟩, 1⟩ ++
    [⟨.payment, ⟨.account, .replicate 20 4⟩, 1⟩]

/-- The crowd gives in the first block, and the window goes by. -/
def crowd (n : Nat) : List Operation :=
  (crowdBlock n).map (fun t => .pay t.sender t.amount) ++ .replicate 11 .mine

theorem amount_of_mem_crowdBlock {n : Nat} {t : Transfer} (h : t ∈ crowdBlock n) :
    t.amount = 1 := by
  simp only [crowdBlock, List.mem_append, List.mem_replicate, List.mem_singleton] at h
  rcases h with ⟨_, rfl⟩ | rfl
  · rfl
  · rfl

theorem total_crowdBlock (n : Nat) : total (crowdBlock n) = n + 1 := by
  simp [total, crowdBlock]

theorem blocks_crowd (n : Nat) : blocks (crowd n) = crowdBlock n :: .replicate 10 [] := by
  have htransfers : transfers ((crowdBlock n).map fun t => .pay t.sender t.amount) =
      crowdBlock n := by
    have hone : Operation.transfer? (.pay ⟨.account, .replicate 20 3⟩ 1) =
        some ⟨.payment, ⟨.account, .replicate 20 3⟩, 1⟩ := rfl
    rw [transfers, crowdBlock, List.map_append, List.filterMap_append, List.map_replicate,
      List.filterMap_replicate_of_some hone]
    rfl
  unfold blocks crowd
  rw [blocksFrom_append _ _ (by simp), htransfers]
  rfl

theorem inWindow_crowd (n : Nat) : smallCampaign.inWindow (crowd n) = crowdBlock n := by
  rw [inWindow, blocks_crowd]
  exact List.append_nil _

theorem inClosing_crowd (n : Nat) : smallCampaign.inClosing (crowd n) = [] := by
  rw [inClosing, blocks_crowd]
  rfl

theorem raised_crowd (n : Nat) : smallCampaign.raised (crowd n) = n + 6 := by
  have hfunding : smallCampaign.funding.toInt = 5 := rfl
  have hnone : total [] = 0 := rfl
  rw [raised, inWindow_crowd, inClosing_crowd, total_crowdBlock, hfunding, hnone]
  omega

theorem refundSteps_crowd (n : Nat) : smallCampaign.refundSteps (crowd n) = 11 * n + 18 := by
  rw [refundSteps, inWindow_crowd, inClosing_crowd]
  simp [paymentsOf, messagesOf, crowdBlock]
  omega

theorem sound_crowd {n : Nat} (h : n < 2 ^ 31) : smallCampaign.Sound (crowd n) := by
  have hall : (blocks (crowd n)).flatten = crowdBlock n := by
    simp [blocks_crowd]
  have hfunding : smallCampaign.funding.toInt = 5 := rfl
  refine ⟨by decide, by decide, ?_, ?_, ?_⟩
  · rw [hall]
    intro t ht
    rw [amount_of_mem_crowdBlock ht]
    decide
  · rw [hall, total_crowdBlock, hfunding]
    omega
  · intro b hb
    rw [blocks_crowd, List.mem_cons] at hb
    rcases hb with rfl | hb
    · simp [crowdBlock]
      omega
    · rw [List.eq_of_mem_replicate hb]
      decide

/-- The last donor comes too late. -/
theorem refunds_within_crowd {budget n : Nat} (height : UInt32) (h : 11 * n ≤ budget)
    (hlast : budget < 11 * n + 10) :
    refunds height (within budget (crowdBlock n)) =
      .replicate n ⟨⟨.account, .replicate 20 3⟩, 1, height⟩ := by
  have hturns : turns (List.replicate n ⟨.payment, ⟨.account, .replicate 20 3⟩, 1⟩) = 11 * n := by
    simp [turns, turn, Nat.mul_comm]
  rw [crowdBlock, refunds_within_append height _ (by omega), hturns, within_cons,
    if_neg (by omega)]
  simp [within, refunds, paymentsOf]

/-- With 9091 donations there is time for 9090 refunds. The last donor gets nothing back, and the
six units that are left stay in the campaign. -/
theorem the_limit_cuts_the_refund_off_before_the_last_donor :
    ∃ c, smallCampaign.Reaches (crowd 9090) c ∧ c.machine.status = .faulted .stepLimit ∧
      c.machine.payments.toList.map entry =
        .replicate 9090 (⟨.account, .replicate 20 3⟩, 1, 111) ∧
      c.machine.balance.toInt = 6 := by
  obtain ⟨c, hc, hstatus, _, hpayments, hbalance, _⟩ :=
    the_limit_cuts_the_refund_off smallCampaign (crowd 9090) (sound_crowd (by decide))
      (by rw [blocks_crowd]; rfl) (by rw [raised_crowd]; decide)
      (by rw [refundSteps_crowd]; decide)
  have hentries : c.machine.payments.toList.map entry =
      .replicate 9090 (⟨.account, .replicate 20 3⟩, 1, 111) := by
    rw [hpayments, inWindow_crowd, ← map_entry_refunds_within (by decide),
      refunds_within_crowd _ (by decide) (by decide), List.map_replicate]
    rfl
  have hpaid : paid c.machine.payments = 9090 := by
    rw [paid_eq, hentries, List.map_replicate, List.sum_replicate_int]
    rfl
  rw [hpaid, raised_crowd] at hbalance
  exact ⟨c, hc, hstatus, hentries, by omega⟩

end Deployment

end Pledge.Campaign
