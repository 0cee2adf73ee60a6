-- The laws of settlement, for every campaign and every history: below the goal
-- every payment of the window goes back to its sender, and at the goal all of
-- the money goes to the awardee. The closing block counts for the goal.
import Pledge.Proofs.Campaign.Deployment

namespace Pledge.Campaign

/-- A payment as numbers: to whom, how much, and in which block. -/
def entry (p : Payment) : Address × Int × Nat := (p.recipient, p.amount.toInt, p.height.toNat)

theorem map_entry_refunds {height : Nat} (hheight : height < 2 ^ 32) (ts : List Transfer) :
    (refunds (UInt32.ofNat height) ts).map entry =
      ((paymentsOf ts).filter (0 < ·.amount)).map fun t => (t.sender, t.amount.toInt, height) := by
  simp [refunds, entry, UInt32.toNat_ofNat_of_lt' hheight]

theorem map_entry_payout {height : Nat} {recipient : Address} {amount : Int}
    (hheight : height < 2 ^ 32) (h0 : 0 ≤ amount) (hfit : amount < 2 ^ 63) :
    (payout (UInt32.ofNat height) recipient (Int64.ofInt amount)).map entry =
      if 0 < amount then [(recipient, amount, height)] else [] := by
  have hexact : (Int64.ofInt amount).toInt = amount :=
    Word.toInt_ofInt (Word.fits_of_le h0 (Int.le_refl _) hfit)
  have hzero : Int64.ofInt amount = 0 ↔ amount = 0 := by
    rw [← Int64.toInt_inj, hexact, Int64.toInt_zero]
  unfold payout
  by_cases hz : amount = 0
  · rw [if_pos (hzero.mpr hz), if_neg (by omega), List.map_nil]
  · rw [if_neg (fun h => hz (hzero.mp h)), if_pos (by omega), List.map_singleton, entry, hexact,
      UInt32.toNat_ofNat_of_lt' hheight]

namespace Deployment

variable {d : Deployment} {ops : List Operation} {c : Chain}

/-! ## Histories of a campaign -/

/-- A history leads to a chain: the campaign is built and deployed, and then the operations are
done. -/
def Reaches (d : Deployment) (ops : List Operation) (c : Chain) : Prop :=
  ∃ campaign, build d.terms = .ok campaign ∧
    (Chain.deploy campaign.container d.creator d.funding d.height).performAll ops = .ok c

/-- The heights up to the closing block are in the lower half of all heights, and the money is
regular. -/
structure Sound (d : Deployment) (ops : List Operation) : Prop where
  closing : d.closing < 2 ^ 31
  regular : Regular d.funding.toInt (blocks ops)

def inWindow (d : Deployment) (ops : List Operation) : List Transfer :=
  ((blocks ops).take d.window).flatten

def inClosing (d : Deployment) (ops : List Operation) : Block := (blocks ops).getD d.window []

/-- All that the campaign has received up to the closing block. -/
def raised (d : Deployment) (ops : List Operation) : Int :=
  d.funding.toInt + total (d.inWindow ops) + total (d.inClosing ops)

/-- What no sender gets back: the funding, the money of messages, and the closing block. -/
def leftover (d : Deployment) (ops : List Operation) : Int :=
  d.funding.toInt + total (messagesOf (d.inWindow ops)) + total (d.inClosing ops)

/-- The number of instructions that a refund takes. -/
def refundSteps (d : Deployment) (ops : List Operation) : Nat :=
  3 + 11 * (paymentsOf (d.inWindow ops)).length + 7 * (messagesOf (d.inWindow ops)).length +
    if d.inClosing ops = [] then 4 else 6

theorem reaches_iff : d.Reaches ops c ↔
    ∃ c₁, d.chain.takeBlocks (blocks ops) = .ok c₁ ∧ c = c₁.withPending (queuedAfter [] ops) := by
  unfold Reaches
  rw [build_eq]
  constructor
  · rintro ⟨campaign, hbuild, hall⟩
    cases hbuild
    exact (Chain.performAll_eq_ok rfl).mp hall
  · intro h
    exact ⟨_, rfl, (Chain.performAll_eq_ok rfl).mpr h⟩

/-- The window, the closing block and the blocks after it. -/
theorem blocks_eq (hmined : d.window < (blocks ops).length) :
    blocks ops = (blocks ops).take d.window ++
      d.inClosing ops :: (blocks ops).drop (d.window + 1) := by
  have hclosing : d.inClosing ops = (blocks ops)[d.window] := by
    rw [inClosing, List.getD_eq_getElem?_getD, List.getElem?_eq_getElem hmined]
    rfl
  rw [hclosing, ← List.drop_eq_getElem_cons hmined, List.take_append_drop]

/-- In a history that goes as far as the closing block, the campaign wakes there. What it does then
is done before the blocks after it. -/
theorem woken_of_sound (h : d.Sound ops) (hmined : d.window < (blocks ops).length) :
    ∃ c : Chain, d.Woken ((blocks ops).take d.window) (d.inClosing ops) c.view c.machine ∧
      ∀ m, c.machine.run c.view = .ok m →
        d.chain.takeBlocks (blocks ops) =
          ({ c with machine := m } : Chain).takeBlocks ((blocks ops).drop (d.window + 1)) := by
  obtain ⟨_, hleast, _⟩ := d.window_bounds
  have hlen : ((blocks ops).take d.window).length = d.window := by
    rw [List.length_take]
    omega
  have hne : (blocks ops).take d.window ≠ [] := by
    intro hnil
    rw [hnil, List.length_nil] at hlen
    omega
  have hregular : Regular d.funding.toInt ((blocks ops).take d.window ++ [d.inClosing ops]) := by
    have hall := h.regular
    rw [blocks_eq hmined, List.append_cons] at hall
    exact hall.left
  obtain ⟨c, hc, hw⟩ := waiting_of_blocks h.closing hne (by omega) hregular.left
  obtain ⟨hwoken, htake⟩ := takeBlock_closing h.closing hlen hregular hw
  refine ⟨c.credited (d.inClosing ops), hwoken, ?_⟩
  intro m hm
  rw [hm] at htake
  have hall := congrArg d.chain.takeBlocks (blocks_eq hmined)
  rw [hall, Chain.takeBlocks_append, hc]
  show c.takeBlocks (_ :: _) = _
  rw [Chain.takeBlocks, htake]
  rfl

/-- The chain right after the closing block. -/
theorem reaches_closing (hexact : (blocks ops).length = d.window + 1) {c₁ : Chain}
    (h : d.chain.takeBlocks (blocks ops) = c₁.takeBlocks ((blocks ops).drop (d.window + 1))) :
    d.Reaches ops (c₁.withPending (queuedAfter [] ops)) := by
  rw [List.drop_of_length_le (by omega)] at h
  exact reaches_iff.mpr ⟨c₁, h, rfl⟩

/-- The award as numbers. -/
theorem map_entry_award {view : View} {m : Machine}
    (hw : d.Woken ((blocks ops).take d.window) (d.inClosing ops) view m) :
    [(⟨d.terms.awardee, m.balance, UInt32.ofNat d.closing⟩ : Payment)].map entry =
      [(d.terms.awardee, d.raised ops, d.closing)] := by
  have hheight : d.closing < 2 ^ 32 := Nat.lt_trans hw.closing (by decide)
  rw [List.map_singleton, entry, hw.balance, UInt32.toNat_ofNat_of_lt' hheight]
  rfl

/-- Once a campaign is settled it pays nothing more. -/
theorem payments_of_settled {payments : List Payment} {later : List Operation} {c' : Chain}
    (hs : Settled payments c.machine) (h : c.performAll later = .ok c') :
    c'.machine.payments = c.machine.payments := by
  have hdone : c.machine.isDone = true := by
    unfold Machine.isDone
    rw [hs.status]
  obtain ⟨balance, hm, _⟩ := Chain.machine_performAll_of_done hdone h
  rw [hm]

/-! ## The two sides -/

/-- A campaign with the shortest window and the smallest goal. -/
def smallCampaign : Deployment where
  terms := ⟨10, ⟨1000000⟩, ⟨.account, .replicate 20 2⟩, by decide, by decide⟩
  creator := ⟨.account, .replicate 20 1⟩
  funding := 5
  height := 100

/-- Below the goal every payment of the window goes back: after the closing block the campaign has
finished with nothing left, it has paid each sender of the window and then its creator what no
sender gets back, and it never pays again. -/
theorem below_the_goal_every_payment_goes_back (d : Deployment) (ops : List Operation)
    (h : d.Sound ops) (hmined : (blocks ops).length = d.window + 1)
    (hgoal : d.raised ops < d.terms.goal.units.toInt) (hsteps : d.refundSteps ops ≤ 100000) :
    ∃ c, d.Reaches ops c ∧ c.machine.status = .finished ∧ c.machine.balance = 0 ∧
      c.machine.payments.toList.map entry =
        ((paymentsOf (d.inWindow ops)).filter (0 < ·.amount)).map
          (fun t => (t.sender, t.amount.toInt, d.closing)) ++
        (if 0 < d.leftover ops then [(d.creator, d.leftover ops, d.closing)] else []) ∧
      ∀ later c', c.performAll later = .ok c' → c'.machine.payments = c.machine.payments := by
  obtain ⟨c, hw, hblocks⟩ := woken_of_sound h (by omega)
  have hlimit : 3 + turns (d.inWindow ops) + (if d.inClosing ops = [] then 4 else 6) ≤
      Machine.stepLimit := by
    rw [turns_eq, ← Nat.add_assoc]
    exact hsteps
  obtain ⟨m, hrun, _, hsettled⟩ := hw.refund hgoal hlimit
  refine ⟨_, reaches_closing hmined (hblocks m hrun), hsettled.status, hsettled.balance, ?_, ?_⟩
  · obtain ⟨hrest, hfits, _⟩ := d.leftover_bounds hw.regular
    have hheight : d.closing < 2 ^ 32 := Nat.lt_trans hw.closing (by decide)
    show m.payments.toList.map entry = _
    rw [hsettled.payments, List.map_append, map_entry_refunds hheight,
      map_entry_payout hheight hrest hfits]
    rfl
  · intro later c' hlater
    exact payments_of_settled hsettled hlater

/-- A payment of three, a message with two and a late payment of seven: the three go back, and the
creator has funded five and gets fourteen. -/
theorem below_the_goal_every_payment_goes_back_in_a_small_campaign :
    ∃ c, smallCampaign.Reaches
        ([.pay ⟨.account, .replicate 20 3⟩ 3, .message ⟨.account, .replicate 20 4⟩ 2] ++
          .replicate 10 .mine ++ [.pay ⟨.account, .replicate 20 3⟩ 7, .mine]) c ∧
      c.machine.payments.toList.map entry =
        [(⟨.account, .replicate 20 3⟩, 3, 111), (⟨.account, .replicate 20 1⟩, 14, 111)] := by
  obtain ⟨c, hc, _, _, hp, _⟩ := below_the_goal_every_payment_goes_back smallCampaign
    ([.pay ⟨.account, .replicate 20 3⟩ 3, .message ⟨.account, .replicate 20 4⟩ 2] ++
      .replicate 10 .mine ++ [.pay ⟨.account, .replicate 20 3⟩ 7, .mine])
    ⟨by decide, ⟨by decide, by decide, by decide, by decide⟩⟩ (by decide) (by decide) (by decide)
  exact ⟨c, hc, hp⟩

/-- At the goal all of the money goes to the awardee: after the closing block the campaign has
finished with nothing left, this is its only payment, and it never pays again. -/
theorem a_reached_goal_pays_the_awardee (d : Deployment) (ops : List Operation)
    (h : d.Sound ops) (hmined : (blocks ops).length = d.window + 1)
    (hgoal : d.terms.goal.units.toInt ≤ d.raised ops) :
    ∃ c, d.Reaches ops c ∧ c.machine.status = .finished ∧ c.machine.balance = 0 ∧
      c.machine.payments.toList.map entry = [(d.terms.awardee, d.raised ops, d.closing)] ∧
      ∀ later c', c.performAll later = .ok c' → c'.machine.payments = c.machine.payments := by
  obtain ⟨c, hw, hblocks⟩ := woken_of_sound h (by omega)
  obtain ⟨m, hrun, _, hsettled⟩ := hw.award hgoal
  refine ⟨_, reaches_closing hmined (hblocks m hrun), hsettled.status, hsettled.balance, ?_, ?_⟩
  · show m.payments.toList.map entry = _
    rw [hsettled.payments]
    exact map_entry_award hw
  · intro later c' hlater
    exact payments_of_settled hsettled hlater

/-- Half of the goal within the window and half of it in the closing block. -/
theorem a_reached_goal_pays_the_awardee_of_a_small_campaign :
    ∃ c, smallCampaign.Reaches
        ([.pay ⟨.account, .replicate 20 3⟩ 500000] ++ .replicate 10 .mine ++
          [.pay ⟨.account, .replicate 20 3⟩ 500000, .mine]) c ∧
      c.machine.payments.toList.map entry = [(⟨.account, .replicate 20 2⟩, 1000005, 111)] := by
  obtain ⟨c, hc, _, _, hp, _⟩ := a_reached_goal_pays_the_awardee smallCampaign
    ([.pay ⟨.account, .replicate 20 3⟩ 500000] ++ .replicate 10 .mine ++
      [.pay ⟨.account, .replicate 20 3⟩ 500000, .mine])
    ⟨by decide, ⟨by decide, by decide, by decide, by decide⟩⟩ (by decide) (by decide)
  exact ⟨c, hc, hp⟩

/-! ## What the closing block decides -/

/-- The settlement has taken the award branch: the machine has finished before the place where
refunds begin. -/
def TookAward (d : Deployment) (c : Chain) : Prop :=
  c.machine.status = .finished ∧ ∃ campaign refund, build d.terms = .ok campaign ∧
    campaign.assembled.labels.get? refundDonors = some refund ∧ c.machine.pc < refund

theorem tookAward_iff : d.TookAward c ↔ c.machine.status = .finished ∧ c.machine.pc < 88 := by
  unfold TookAward
  rw [build_eq]
  constructor
  · rintro ⟨hstatus, campaign, refund, hbuild, hlabel, hpc⟩
    cases hbuild
    cases hlabel
    exact ⟨hstatus, hpc⟩
  · rintro ⟨hstatus, hpc⟩
    exact ⟨hstatus, _, 88, rfl, rfl, hpc⟩

/-- After the closing block the award branch has been taken if and only if the goal was reached,
the closing block counted, and then the awardee has got all of it. -/
theorem tookAward_iff_raised (h : d.Sound ops) (hmined : d.window < (blocks ops).length)
    (hc : d.Reaches ops c) :
    (d.TookAward c ↔ d.terms.goal.units.toInt ≤ d.raised ops) ∧
      (d.TookAward c →
        c.machine.payments.toList.map entry = [(d.terms.awardee, d.raised ops, d.closing)]) := by
  obtain ⟨c₁, hw, hblocks⟩ := woken_of_sound h hmined
  obtain ⟨m, hrun, hdone, hside, hpaid⟩ := hw.outcome
  obtain ⟨c₂, htake, rfl⟩ := reaches_iff.mp hc
  rw [hblocks m hrun] at htake
  obtain ⟨balance, hm, _⟩ := Chain.machine_takeBlocks_of_done hdone htake
  have htook : d.TookAward (c₂.withPending (queuedAfter [] ops)) ↔
      d.terms.goal.units.toInt ≤ d.raised ops := by
    rw [tookAward_iff, Chain.machine_withPending, hm]
    exact hside
  refine ⟨htook, fun haward => ?_⟩
  rw [Chain.machine_withPending, hm]
  show m.payments.toList.map entry = _
  rw [hpaid (htook.mp haward)]
  exact map_entry_award hw

/-- A sound history up to the closing block can be done. -/
theorem exists_reaches (h : d.Sound ops) (hmined : (blocks ops).length = d.window + 1) :
    ∃ c, d.Reaches ops c := by
  obtain ⟨c, hw, hblocks⟩ := woken_of_sound h (by omega)
  obtain ⟨m, hrun, _⟩ := hw.outcome
  exact ⟨_, reaches_closing hmined (hblocks m hrun)⟩

/-- Late money can decide the side. Of two histories with the same window, both or neither take the
award branch exactly if the closing block makes up for the goal in both or in neither; and the
award branch pays all of the money to the awardee. -/
theorem the_closing_block_can_turn_the_side (d : Deployment) (ops ops' : List Operation)
    (c c' : Chain) (h : d.Sound ops) (h' : d.Sound ops')
    (hmined : d.window < (blocks ops).length) (hmined' : d.window < (blocks ops').length)
    (hsame : (blocks ops).take d.window = (blocks ops').take d.window)
    (hc : d.Reaches ops c) (hc' : d.Reaches ops' c') :
    ((d.TookAward c ↔ d.TookAward c') ↔
      (d.terms.goal.units.toInt ≤
          d.funding.toInt + total (d.inWindow ops) + total (d.inClosing ops) ↔
        d.terms.goal.units.toInt ≤
          d.funding.toInt + total (d.inWindow ops) + total (d.inClosing ops'))) ∧
    (d.TookAward c →
      c.machine.payments.toList.map entry = [(d.terms.awardee, d.raised ops, d.closing)]) := by
  obtain ⟨hside, hpaid⟩ := tookAward_iff_raised h hmined hc
  obtain ⟨hside', _⟩ := tookAward_iff_raised h' hmined' hc'
  have hwindow : d.inWindow ops = d.inWindow ops' := congrArg List.flatten hsame
  refine ⟨?_, hpaid⟩
  rw [hside, hside', raised, raised, ← hwindow]

/-- With the goal reached in the window the closing block decides nothing. -/
theorem the_closing_block_cannot_turn_a_reached_goal :
    ∃ c c', smallCampaign.Reaches
        (.pay ⟨.account, .replicate 20 3⟩ 1000000 :: .replicate 11 .mine) c ∧
      smallCampaign.Reaches
        (.pay ⟨.account, .replicate 20 3⟩ 1000000 ::
          (.replicate 10 .mine ++ [.pay ⟨.account, .replicate 20 4⟩ 7, .mine])) c' ∧
      (smallCampaign.TookAward c ↔ smallCampaign.TookAward c') := by
  have hsound : smallCampaign.Sound
      (.pay ⟨.account, .replicate 20 3⟩ 1000000 :: .replicate 11 .mine) :=
    ⟨by decide, ⟨by decide, by decide, by decide, by decide⟩⟩
  have hsound' : smallCampaign.Sound
      (.pay ⟨.account, .replicate 20 3⟩ 1000000 ::
        (.replicate 10 .mine ++ [.pay ⟨.account, .replicate 20 4⟩ 7, .mine])) :=
    ⟨by decide, ⟨by decide, by decide, by decide, by decide⟩⟩
  obtain ⟨c, hc⟩ := exists_reaches hsound (by decide)
  obtain ⟨c', hc'⟩ := exists_reaches hsound' (by decide)
  refine ⟨c, c', hc, hc', ?_⟩
  rw [(the_closing_block_can_turn_the_side smallCampaign _ _ c c' hsound hsound' (by decide)
    (by decide) (by decide) hc hc').1]
  decide

/-- Nobody gives anything in the window. Without more the award is not made; a payment in the
closing block, after the deadline, is enough to have it made. -/
theorem a_late_payment_turns_a_refund_into_an_award :
    ∃ c c', smallCampaign.Reaches (.replicate 11 .mine) c ∧
      smallCampaign.Reaches
        (.replicate 10 .mine ++ [.pay ⟨.account, .replicate 20 3⟩ 1000000, .mine]) c' ∧
      ¬ smallCampaign.TookAward c ∧ smallCampaign.TookAward c' ∧
      c'.machine.payments.toList.map entry = [(⟨.account, .replicate 20 2⟩, 1000005, 111)] := by
  have hsound : smallCampaign.Sound (.replicate 11 .mine) :=
    ⟨by decide, ⟨by decide, by decide, by decide, by decide⟩⟩
  have hsound' : smallCampaign.Sound
      (.replicate 10 .mine ++ [.pay ⟨.account, .replicate 20 3⟩ 1000000, .mine]) :=
    ⟨by decide, ⟨by decide, by decide, by decide, by decide⟩⟩
  obtain ⟨c, hc⟩ := exists_reaches hsound (by decide)
  obtain ⟨c', hc'⟩ := exists_reaches hsound' (by decide)
  obtain ⟨hside, _⟩ := tookAward_iff_raised hsound (by decide) hc
  obtain ⟨hside', hpaid⟩ := tookAward_iff_raised hsound' (by decide) hc'
  have haward : smallCampaign.TookAward c' := hside'.mpr (by decide)
  exact ⟨c, c', hc, hc', fun h => absurd (hside.mp h) (by decide), haward, hpaid haward⟩

end Deployment

end Pledge.Campaign
