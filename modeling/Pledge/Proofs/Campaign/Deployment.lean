-- A deployed campaign, block by block: it sleeps through its window, and in
-- the closing block it is settled.
import Pledge.Proofs.Campaign.Exhaustion
import Pledge.Proofs.Lifecycle

namespace Pledge.Campaign

structure Deployment where
  terms : Terms
  creator : Address
  funding : Word
  height : UInt32
  deriving DecidableEq, Repr

namespace Deployment

variable {d : Deployment} {bs : List Block} {b : Block} {c : Chain}

/-- The number of blocks in the window. -/
def window (d : Deployment) : Nat := d.terms.window.toInt.toNat

/-- The height of the closing block, the first one after the window. -/
def closing (d : Deployment) : Nat := d.height.toNat + 1 + d.window

def deployTx (d : Deployment) : Tx where
  kind := .payment
  sender := d.creator
  amount := d.funding
  timestamp := timestamp d.height 0

/-- The chain with the campaign deployed. -/
def chain (d : Deployment) : Chain := Chain.deploy (container d.terms) d.creator d.funding d.height

theorem window_bounds (d : Deployment) :
    d.terms.window.toInt = d.window ∧ 10 ≤ d.window ∧ d.window ≤ 43200 := by
  obtain ⟨hmin, hmax⟩ := d.terms.window_bounds
  rw [Int64.le_iff_toInt_le] at hmin hmax
  have hleast : minWindow.toInt = 10 := rfl
  have hmost : maxWindow.toInt = 43200 := rfl
  unfold window
  omega

theorem height_chain (d : Deployment) : d.chain.height = d.height := rfl

theorem machine_chain (d : Deployment) :
    d.chain.machine = deployed d.terms d.creator (timestamp d.height 0) d.funding :=
  deploy_container d.terms d.creator (timestamp d.height 0) d.funding

theorem machine_received (d : Deployment) (b : Block) (balance : Word) :
    (d.chain.received b balance).machine =
      deployed d.terms d.creator (timestamp d.height 0) balance := by
  unfold Chain.received
  rw [machine_chain]
  rfl

/-! ## The window -/

/-- What a campaign is like within its window, after some blocks: it has what it was given, and
sleeps until the closing block. -/
structure Waiting (d : Deployment) (bs : List Block) (c : Chain) : Prop where
  height : c.height = d.height + UInt32.ofNat bs.length
  txs : c.txs.toList = d.deployTx :: Chain.stamps d.height bs
  running : Running d.terms.awardee
    (waiting (initialVars d.terms) (timestamp d.height 0) d.closing) 56 c.machine
  status : c.machine.status = .sleeping (UInt32.ofNat d.closing)
  creator : c.machine.creator = d.creator
  payments : c.machine.payments = #[]
  balance : c.machine.balance.toInt = d.funding.toInt + total bs.flatten

/-- The machine of a sleeping campaign. -/
def asleep (d : Deployment) (balance : Word) : Machine :=
  { goOn (deployed d.terms d.creator (timestamp d.height 0) balance) d.terms.awardee
      (waiting (initialVars d.terms) (timestamp d.height 0) d.closing) 56 with
    status := .sleeping (UInt32.ofNat d.closing) }

/-- In its first block a campaign goes to sleep, whatever it has. -/
theorem activate_first (hclosing : d.closing < 2 ^ 31) (b : Block) (balance : Word) :
    Chain.activate (d.chain.received b balance).view (d.chain.received b balance).machine =
      .ok (d.asleep balance) := by
  obtain ⟨hwindow, _, _⟩ := d.window_bounds
  have hheight : d.height.toNat + 1 + d.window < 2 ^ 31 := hclosing
  have hlow : d.chain.height.toNat + 1 < 2 ^ 32 := by
    rw [height_chain]
    omega
  have hview : (d.chain.received b balance).view.height.toNat = d.height.toNat + 1 :=
    Chain.toNat_succ hlow
  have hwake : (d.closing : Int) =
      (d.chain.received b balance).view.height.toNat +
        (initialVars d.terms .windowMinutes).toInt := by
    simp only [initialVars]
    rw [hview, hwindow, closing]
    omega
  rw [machine_received, Chain.activate_of_awake rfl,
    run_first (running_deployed d.terms d.creator _ _) (by omega) hwake (by omega)]
  rfl

theorem takeBlock_first (hclosing : d.closing < 2 ^ 31) (h : Regular d.funding.toInt [b]) :
    d.chain.takeBlock b = .ok { d.chain.credited b with
      machine := d.asleep (Int64.ofInt (d.funding.toInt + total b)) } := by
  have hheight : d.height.toNat + 1 + d.window < 2 ^ 31 := hclosing
  have hlow : d.chain.height.toNat + 1 < 2 ^ 32 := by
    rw [height_chain]
    omega
  rw [Chain.takeBlock_of_regular hlow h]
  unfold Chain.credited
  rw [activate_first hclosing]
  rfl

/-- Within the window a campaign waits, whatever it is given. -/
theorem waiting_of_blocks (hclosing : d.closing < 2 ^ 31) (hne : bs ≠ [])
    (hlen : bs.length ≤ d.window) (h : Regular d.funding.toInt bs) :
    ∃ c, d.chain.takeBlocks bs = .ok c ∧ d.Waiting bs c := by
  obtain ⟨b, bs, rfl⟩ := List.exists_cons_of_ne_nil hne
  have hheight : d.height.toNat + 1 + d.window < 2 ^ 31 := hclosing
  have hsucc : (d.height + 1).toNat = d.height.toNat + 1 := Chain.toNat_succ (by omega)
  have hsplit : Regular d.funding.toInt ([b] ++ bs) := h
  have hfirst := hsplit.left
  let c₁ := { d.chain.credited b with
    machine := d.asleep (Int64.ofInt (d.funding.toInt + total b)) }
  have hbalance : c₁.machine.balance.toInt = d.funding.toInt + total b := hfirst.toInt_ofInt_block
  have hrest : Regular c₁.machine.balance.toInt bs := by
    rw [hbalance]
    simpa using hsplit.right
  have hwake : c₁.height.toNat + bs.length < (UInt32.ofNat d.closing).toNat := by
    rw [UInt32.toNat_ofNat_of_lt' (show _ < 2 ^ 32 by omega)]
    show (d.height + 1).toNat + bs.length < d.closing
    simp at hlen
    rw [hsucc, closing]
    omega
  refine ⟨c₁.afterBlocks bs, ?_, ?_⟩
  · unfold Chain.takeBlocks
    rw [takeBlock_first hclosing hfirst]
    exact Chain.takeBlocks_of_sleeping rfl rfl hwake hrest
  · refine ⟨?_, ?_, ?_, rfl, rfl, rfl, ?_⟩
    · show d.height + 1 + UInt32.ofNat bs.length = _
      rw [Chain.add_ofNat_succ]
      rfl
    · simp [c₁, Chain.afterBlocks, Chain.credited, Chain.received, Chain.stamps, chain,
        Chain.deploy, deployTx]
    · exact ⟨rfl, rfl, rfl, rfl⟩
    · show (Int64.ofInt (c₁.machine.balance.toInt + total bs.flatten)).toInt = _
      rw [hrest.toInt_ofInt, hbalance, List.flatten_cons, total_append, Int.add_assoc]

/-! ## The closing block -/

/-- What a campaign sees and has when it wakes in the closing block `b`, after the blocks of its
window. -/
structure Woken (d : Deployment) (bs : List Block) (b : Block) (view : View) (m : Machine) :
    Prop where
  closing : d.closing < 2 ^ 31
  window : bs.length = d.window
  regular : Regular d.funding.toInt (bs ++ [b])
  height : view.height = UInt32.ofNat d.closing
  txs : view.txs.toList =
    d.deployTx :: (Chain.stamps d.height bs ++ Chain.stamp (UInt32.ofNat d.closing) 0 b)
  running : Running d.terms.awardee
    (waiting (initialVars d.terms) (timestamp d.height 0) d.closing) 56 m
  creator : m.creator = d.creator
  payments : m.payments = #[]
  balance : m.balance.toInt = d.funding.toInt + total bs.flatten + total b

/-- The campaign wakes in the closing block. -/
theorem takeBlock_closing (hclosing : d.closing < 2 ^ 31) (hlen : bs.length = d.window)
    (h : Regular d.funding.toInt (bs ++ [b])) (hw : d.Waiting bs c) :
    d.Woken bs b (c.credited b).view (c.credited b).machine ∧
      c.takeBlock b = ((c.credited b).machine.run (c.credited b).view).map
        fun m => { c.credited b with machine := m } := by
  have hsum : d.height.toNat + 1 + d.window < 2 ^ 31 := hclosing
  have hheight : c.height.toNat = d.height.toNat + d.window := by
    rw [hw.height, hlen, UInt32.toNat_add,
      UInt32.toNat_ofNat_of_lt' (show _ < 2 ^ 32 by omega)]
    omega
  have hview : (c.credited b).view.height = UInt32.ofNat d.closing := by
    apply UInt32.toNat_inj.mp
    rw [UInt32.toNat_ofNat_of_lt' (show _ < 2 ^ 32 by omega)]
    show (c.height + 1).toNat = d.closing
    rw [Chain.toNat_succ (by omega), hheight, closing]
    omega
  have hregular : Regular c.machine.balance.toInt [b] := by
    rw [hw.balance]
    exact h.right
  refine ⟨⟨hclosing, hlen, h, hview, ?_, ?_, hw.creator, hw.payments, ?_⟩, ?_⟩
  · rw [← hview]
    show (c.txs ++ (Chain.stamp (c.height + 1) 0 b).toArray).toList = _
    rw [Array.toList_append, hw.txs]
    rfl
  · exact ⟨hw.running.code, hw.running.data, hw.running.handler, hw.running.pc⟩
  · rw [Chain.toInt_balance_credited hregular, hw.balance]
  · have hawake : (c.credited b).machine.awakeAt (c.credited b).view.height = true := by
      rw [hview]
      show Machine.awakeAt c.machine (UInt32.ofNat d.closing) = true
      unfold Machine.awakeAt
      rw [hw.status]
      simp
    rw [Chain.takeBlock_of_regular (by omega) hregular, Chain.activate_of_awake hawake]

/-- What is left for the creator fits in a word, and the payments that go back are covered. -/
theorem leftover_bounds (h : Regular d.funding.toInt (bs ++ [b])) :
    0 ≤ d.funding.toInt + total (messagesOf bs.flatten) + total b ∧
      d.funding.toInt + total (messagesOf bs.flatten) + total b < 2 ^ 63 ∧
      d.funding.toInt + total bs.flatten + total b - total (paymentsOf bs.flatten) =
        d.funding.toInt + total (messagesOf bs.flatten) + total b := by
  obtain ⟨hpayments, hmessages⟩ := total_kinds_nonneg h.left.amounts
  have hkinds := total_paymentsOf_add_messagesOf bs.flatten
  have hclosed : 0 ≤ total b := total_nonneg fun t ht => h.right.amounts t (by simpa using ht)
  have hfunding := h.nonneg
  have hfits := h.fits
  rw [List.flatten_append, List.flatten_singleton, total_append] at hfits
  omega

variable {view : View} {m : Machine}

namespace Woken

/-- All that the campaign has when it wakes. -/
theorem balance_lt (hw : d.Woken bs b view m) :
    m.balance < d.terms.goal.units ↔
      d.funding.toInt + total bs.flatten + total b < d.terms.goal.units.toInt := by
  rw [Int64.lt_iff_toInt_lt, hw.balance]

/-- The transactions are in order, those of the window before the deadline and those of the
closing block not. -/
theorem order (hw : d.Woken bs b view m) :
    InOrder view.txs.toList ∧ view.txs.size < 2 ^ 63 ∧
      (∀ t ∈ Chain.stamps d.height bs, t.timestamp < timestamp (UInt32.ofNat d.closing) 0) ∧
      ∀ t ∈ Chain.stamp (UInt32.ofNat d.closing) 0 b,
        ¬ t.timestamp < timestamp (UInt32.ofNat d.closing) 0 := by
  have hsum : d.height.toNat + 1 + d.window = d.closing := rfl
  have hclosing := hw.closing
  have hlen := hw.window
  have h := hw.regular
  obtain ⟨_, _, hmost⟩ := d.window_bounds
  have hnat : (UInt32.ofNat d.closing).toNat = d.closing :=
    UInt32.toNat_ofNat_of_lt' (show _ < 2 ^ 32 by omega)
  have hdeadline : (timestamp (UInt32.ofNat d.closing) 0).toInt = d.closing * 2 ^ 32 := by
    rw [toInt_timestamp (by omega), hnat]
    simp
  have hstart : d.deployTx.timestamp.toInt = d.height.toNat * 2 ^ 32 := by
    show (timestamp d.height 0).toInt = _
    rw [toInt_timestamp (by omega)]
    simp
  have hb : b.length < 2 ^ 32 := h.right.lengths b (by simp)
  -- A timestamp lies between the height of its block and the next height, so heights decide.
  have hearly {t : Tx} (ht : t ∈ Chain.stamps d.height bs) :=
    Chain.mem_stamps (by omega) h.left.lengths ht
  have hlate {t : Tx} (ht : t ∈ Chain.stamp (UInt32.ofNat d.closing) 0 b) :=
    Chain.mem_stamp (by omega) (by omega) ht
  refine ⟨?_, ?_, ?_, ?_⟩
  · rw [hw.txs]
    refine .cons ?_ (List.pairwise_append.mpr ⟨Chain.inOrder_stamps (by omega) h.left.lengths,
      Chain.inOrder_stamp (by omega) (by omega), ?_⟩)
    · intro t ht
      rw [Int64.lt_iff_toInt_lt, hstart]
      rcases List.mem_append.mp ht with ht | ht
      · have := hearly ht
        omega
      · have := hlate ht
        omega
    · intro s hs t ht
      have := hearly hs
      have := hlate ht
      rw [Int64.lt_iff_toInt_lt]
      omega
  · have hsize := Chain.length_stamps_le d.height h.left.lengths
    rw [← Array.length_toList, hw.txs, List.length_cons, List.length_append, Chain.length_stamp]
    omega
  · intro t ht
    have := hearly ht
    rw [Int64.lt_iff_toInt_lt, hdeadline]
    omega
  · intro t ht
    have := hlate ht
    rw [Int64.lt_iff_toInt_lt, hdeadline]
    omega

/-- A campaign that has reached its goal pays all that it has to the awardee. -/
theorem award (hw : d.Woken bs b view m)
    (hgoal : d.terms.goal.units.toInt ≤ d.funding.toInt + total bs.flatten + total b) :
    ∃ m', m.run view = .ok m' ∧ m'.pc = 87 ∧
      Settled [⟨d.terms.awardee, m.balance, UInt32.ofNat d.closing⟩] m' := by
  have hleast : 1000000 ≤ d.terms.goal.units.toInt := Int64.le_iff_toInt_le.mp d.terms.goal_bounds.1
  have hbalance := hw.balance
  have hreached : ¬ m.balance < waiting (initialVars d.terms) (timestamp d.height 0) d.closing
      .goalAmount := by
    show ¬ m.balance < d.terms.goal.units
    rw [hw.balance_lt]
    omega
  have hne : m.balance ≠ 0 := by
    intro hz
    rw [hz, Int64.toInt_zero] at hbalance
    omega
  obtain ⟨m', hrun, hpc, hsettled⟩ := run_award view hw.running hreached (by omega)
  rw [hw.payments, hw.height, payout, if_neg hne] at hsettled
  exact ⟨m', hrun, hpc, hsettled⟩

/-- The payments of the window are not negative, and the campaign has what goes back. -/
theorem covers (hw : d.Woken bs b view m) :
    (∀ t ∈ Chain.stamps d.height bs, 0 ≤ t.amount.toInt) ∧
      total (paymentsOf ((Chain.stamps d.height bs).map Tx.toTransfer)) ≤ m.balance.toInt := by
  have hmap := Chain.map_toTransfer_stamps d.height bs
  obtain ⟨hrest, _, hback⟩ := d.leftover_bounds hw.regular
  refine ⟨?_, by rw [hmap, hw.balance]; omega⟩
  intro t ht
  apply hw.regular.left.amounts t.toTransfer
  rw [← hmap]
  exact List.mem_map_of_mem ht

/-- The instructions of the closing block after the last transaction of the window. -/
theorem lastTurn_stamp (height : UInt32) (b : Block) :
    lastTurn (Chain.stamp height 0 b) = if b = [] then 4 else 6 := by
  cases b <;> rfl

/-- The instructions of the closing block when the goal is missed. -/
theorem steps (hw : d.Woken bs b view m)
    (hgoal : d.funding.toInt + total bs.flatten + total b < d.terms.goal.units.toInt) :
    ∃ n position cursor m', n + 1 = 3 + turns bs.flatten + (if b = [] then 4 else 6) ∧
      Steps view n m m' ∧ listing.lookup position = some .finish ∧ 88 ≤ position ∧
      Refunding d.terms.awardee d.creator (timestamp (UInt32.ofNat d.closing) 0) position cursor
        (d.funding.toInt + total (messagesOf bs.flatten) + total b)
        (refunds (UInt32.ofNat d.closing) bs.flatten) m' := by
  obtain ⟨hord, hsize, hearly, hlate⟩ := hw.order
  obtain ⟨h0, hle⟩ := hw.covers
  obtain ⟨_, _, hback⟩ := d.leftover_bounds hw.regular
  obtain ⟨n, position, cursor, m', hn, hsteps, hfin, hpos, hloop⟩ :=
    steps_refund hw.running (hw.balance_lt.mpr hgoal) rfl rfl hord hsize hw.txs hearly hlate h0 hle
  rw [Chain.map_toTransfer_stamps, hw.balance, hw.payments, hw.height, hw.creator, hback] at hloop
  rw [Chain.map_toTransfer_stamps, lastTurn_stamp] at hn
  exact ⟨n, position, cursor, m', hn, hsteps, hfin, hpos, hloop⟩

/-- A campaign that has missed its goal sends the payments of its window back, and the rest to its
creator, if the instructions are within the limit. -/
theorem refund (hw : d.Woken bs b view m)
    (hgoal : d.funding.toInt + total bs.flatten + total b < d.terms.goal.units.toInt)
    (hlimit : 3 + turns bs.flatten + (if b = [] then 4 else 6) ≤ Machine.stepLimit) :
    ∃ m', m.run view = .ok m' ∧ 88 ≤ m'.pc ∧
      Settled (refunds (UInt32.ofNat d.closing) bs.flatten ++
        payout (UInt32.ofNat d.closing) d.creator
          (Int64.ofInt (d.funding.toInt + total (messagesOf bs.flatten) + total b))) m' := by
  obtain ⟨n, position, cursor, m₁, hn, hsteps, hfin, hpos, hloop⟩ := hw.steps hgoal
  obtain ⟨hrest, _, _⟩ := d.leftover_bounds hw.regular
  obtain ⟨hstep, m', hm', hpc, hsettled⟩ := finish_refund view hfin hloop hrest
  refine ⟨m', ?_, by omega, ?_⟩
  · rw [hsteps.run_finish hstep (by omega), hm']
  · rw [hw.height] at hsettled
    exact hsettled

/-- With too many transactions it runs into the limit. What it has sent back until then is all that
it pays. -/
theorem exhausted (hw : d.Woken bs b view m)
    (hgoal : d.funding.toInt + total bs.flatten + total b < d.terms.goal.units.toInt)
    (hlimit : Machine.stepLimit < 3 + turns bs.flatten + (if b = [] then 4 else 6)) :
    ∃ m', m.run view = .ok m' ∧ m'.status = .faulted .stepLimit ∧ m'.payments.toList =
      refunds (UInt32.ofNat d.closing) (within (Machine.stepLimit - 3) bs.flatten) := by
  obtain ⟨hord, hsize, hearly, hlate⟩ := hw.order
  obtain ⟨h0, hle⟩ := hw.covers
  obtain ⟨m₁, s₁, h₁⟩ := steps_begin view hw.running (hw.balance_lt.mpr hgoal) rfl
  have htxs : view.txs.toList = [] ++ d.deployTx ::
      (Chain.stamps d.height bs ++ Chain.stamp (UInt32.ofNat d.closing) 0 b) := hw.txs
  have hthree : 3 ≤ Machine.stepLimit := by decide
  have hk : Machine.stepLimit - 3 < turns ((Chain.stamps d.height bs).map Tx.toTransfer) +
      lastTurn (Chain.stamp (UInt32.ofNat d.closing) 0 b) := by
    rw [Chain.map_toTransfer_stamps, lastTurn_stamp]
    omega
  obtain ⟨m₂, s₂, hpayments⟩ := steps_cut hord hsize htxs h₁ hearly hlate h0 hle hk
  have hlast := s₁.trans s₂
  rw [Nat.add_sub_cancel' hthree] at hlast
  rw [Chain.map_toTransfer_stamps, hw.height, hw.payments] at hpayments
  exact ⟨_, hlast.run_limit, rfl, hpayments⟩

/-- However the closing block ends, the campaign is done then. It has finished before the refunds
if and only if the goal was reached. -/
theorem outcome (hw : d.Woken bs b view m) :
    ∃ m', m.run view = .ok m' ∧ m'.isDone = true ∧
      ((m'.status = .finished ∧ m'.pc < 88) ↔
        d.terms.goal.units.toInt ≤ d.funding.toInt + total bs.flatten + total b) ∧
      (d.terms.goal.units.toInt ≤ d.funding.toInt + total bs.flatten + total b →
        m'.payments.toList = [⟨d.terms.awardee, m.balance, UInt32.ofNat d.closing⟩]) := by
  by_cases hgoal : d.terms.goal.units.toInt ≤ d.funding.toInt + total bs.flatten + total b
  · obtain ⟨m', hrun, hpc, hs⟩ := hw.award hgoal
    exact ⟨m', hrun, by simp [Machine.isDone, hs.status], by simp [hs.status, hpc, hgoal],
      fun _ => hs.payments⟩
  · have hmissed := Int.lt_of_not_ge hgoal
    -- A refund ends in its own part of the code, or at the limit without finishing.
    by_cases hlimit : 3 + turns bs.flatten + (if b = [] then 4 else 6) ≤ Machine.stepLimit
    · obtain ⟨m', hrun, hpc, hs⟩ := hw.refund hmissed hlimit
      refine ⟨m', hrun, by simp [Machine.isDone, hs.status], ?_, fun h => absurd h hgoal⟩
      simp only [hgoal, iff_false]
      omega
    · obtain ⟨m', hrun, hstatus, _⟩ := hw.exhausted hmissed (Nat.lt_of_not_le hlimit)
      exact ⟨m', hrun, by simp [Machine.isDone, hstatus], by simp [hstatus, hgoal],
        fun h => absurd h hgoal⟩

end Woken

end Deployment

end Pledge.Campaign
