-- The window of a campaign: it sleeps through every block of it, whatever it is
-- given and whether its money is in order or not, and the closing block is the
-- first in which it runs again.
import Pledge.Proofs.Campaign.Settlement
import Pledge.Proofs.Lasting

namespace Pledge.Campaign

/-! ## Data -/

/-- A change of one variable leaves the other slots as they are. -/
theorem getElem?_memory_update {slot : Nat} {x : Var} (awardee : Address) (v : Var → Word)
    (w : Word) (hne : slot ≠ x.slot.toNat) :
    (memory awardee (Function.update v x w))[slot]? = (memory awardee v)[slot]? := by
  rw [← set_memory, Array.getElem?_set_ne]
  exact hne.symm

namespace Deployment

variable {d : Deployment} {bs : List Block} {b : Block} {c : Chain}

/-- The words of the closing block and of the deployment in a sleeping campaign. -/
theorem getElem?_asleep (hclosing : d.closing < 2 ^ 31) (balance : Word) :
    (d.asleep balance).data[Layout.standard.deadline.toNat]? =
        some (Int64.ofNat (d.closing * 2 ^ 32)) ∧
      (d.asleep balance).data[Layout.standard.wakeHeight.toNat]? = some (Int64.ofNat d.closing) ∧
      (d.asleep balance).data[Layout.standard.cursor.toNat]? =
        some (Int64.ofNat (d.height.toNat * 2 ^ 32)) := by
  have hnat : (UInt32.ofNat d.closing).toNat = d.closing :=
    UInt32.toNat_ofNat_of_lt' (show _ < 2 ^ 32 by omega)
  have hdeadline : timestamp (UInt32.ofNat d.closing) 0 = Int64.ofNat (d.closing * 2 ^ 32) := by
    simp [timestamp, hnat]
  have hcreated : timestamp d.height 0 = Int64.ofNat (d.height.toNat * 2 ^ 32) := by
    simp [timestamp]
  rw [← hdeadline, ← hcreated]
  exact ⟨getElem?_memory _ _ .deadline, getElem?_memory _ _ .wakeHeight,
    getElem?_memory _ _ .cursor⟩

/-- All other words of a sleeping campaign are those of its container. -/
theorem getElem?_asleep_of_ne {slot : Nat} (balance : Word)
    (hdeadline : slot ≠ Layout.standard.deadline.toNat)
    (hwake : slot ≠ Layout.standard.wakeHeight.toNat)
    (hcursor : slot ≠ Layout.standard.cursor.toNat) :
    (d.asleep balance).data[slot]? = (Wire.wordsOf (container d.terms).data)[slot]? := by
  have hdata : (d.asleep balance).data = memory d.terms.awardee
      (waiting (initialVars d.terms) (timestamp d.height 0) d.closing) := rfl
  rw [wordsOf_container, hdata]
  unfold waiting
  rw [getElem?_memory_update _ _ _ hwake, getElem?_memory_update _ _ _ hdeadline,
    getElem?_memory_update _ _ _ hcursor]

theorem asleep_credit (d : Deployment) (balance balance' : Word) :
    { d.asleep balance with balance := balance' } = d.asleep balance' := rfl

/-! ## Blocks -/

/-- After its first block a campaign sleeps. -/
theorem machine_first (hclosing : d.closing < 2 ^ 31) (h : d.chain.takeBlock b = .ok c) :
    ∃ balance, c.machine = d.asleep balance ∧ balance.toInt = d.funding.toInt + total b := by
  obtain ⟨_, balance, m, hbalance, ha, rfl⟩ := Chain.takeBlock_eq_ok h
  rw [activate_first hclosing] at ha
  cases ha
  exact ⟨balance, rfl, hbalance⟩

/-- Through the window a campaign sleeps, and has all that it was given. -/
theorem machine_within (hclosing : d.closing < 2 ^ 31) (h : d.chain.takeBlocks bs = .ok c)
    (hne : bs ≠ []) (hlen : bs.length ≤ d.window) :
    ∃ balance, c.machine = d.asleep balance ∧
      balance.toInt = d.funding.toInt + total bs.flatten := by
  obtain ⟨b, bs, rfl⟩ := List.exists_cons_of_ne_nil hne
  rw [List.length_cons] at hlen
  unfold Chain.takeBlocks at h
  split at h
  · rename_i c₁ h₁
    obtain ⟨balance, hm, hbalance⟩ := machine_first hclosing h₁
    have hheight : c₁.height.toNat = d.height.toNat + 1 := Chain.height_takeBlock h₁
    have hasleep : ∀ height : UInt32, height.toNat ≤ c₁.height.toNat + bs.length →
        c₁.machine.awakeAt height = false := by
      intro height hle
      have hsleeping : c₁.machine.status = .sleeping (UInt32.ofNat d.closing) := by
        rw [hm]
        rfl
      have hsum : d.closing = d.height.toNat + 1 + d.window := rfl
      rw [Chain.awakeAt_of_sleeping hsleeping, decide_eq_false_iff_not, UInt32.le_iff_toNat_le,
        UInt32.toNat_ofNat_of_lt' (show _ < 2 ^ 32 by omega)]
      omega
    obtain ⟨balance', hm', hbalance'⟩ := Chain.machine_takeBlocks_of_asleep h hasleep
    have hcredit : (d.asleep balance).balance = balance := rfl
    rw [hm, hcredit, hbalance] at hbalance'
    rw [hm, asleep_credit] at hm'
    refine ⟨balance', hm', ?_⟩
    rw [hbalance', List.flatten_cons, total_append]
    omega
  · cases h

/-! ## The law of the window -/

/-- Nothing happens before the window closes. After each block from the deployment to the one before
the closing block, whoever has sent whatever, the campaign sleeps until the closing block, has paid
nothing, and has its funding and all that was mined; of its data only the deadline, the height to
wake at and the cursor have changed. It executes an instruction in the next block exactly if that is
the closing block. -/
theorem nothing_happens_before_the_window_closes (d : Deployment) (ops : List Operation) (c : Chain)
    (hclosing : d.closing < 2 ^ 31) (h : d.Reaches ops c)
    (hfirst : d.height.toNat < c.height.toNat) (hbefore : c.height.toNat < d.closing) :
    c.machine.status = .sleeping (UInt32.ofNat d.closing) ∧ c.machine.payments = #[] ∧
    c.machine.balance.toInt = d.funding.toInt + total (mined ops) ∧
    (∃ campaign, build d.terms = .ok campaign ∧
      c.machine.data[campaign.layout.deadline.toNat]? = some (Int64.ofNat (d.closing * 2 ^ 32)) ∧
      c.machine.data[campaign.layout.wakeHeight.toNat]? = some (Int64.ofNat d.closing) ∧
      c.machine.data[campaign.layout.cursor.toNat]? =
        some (Int64.ofNat (d.height.toNat * 2 ^ 32)) ∧
      ∀ slot, slot ≠ campaign.layout.deadline.toNat → slot ≠ campaign.layout.wakeHeight.toNat →
        slot ≠ campaign.layout.cursor.toNat →
        c.machine.data[slot]? = (Wire.wordsOf campaign.container.data)[slot]?) ∧
    ∀ c', c.mine = .ok c' → ((∃ view m, c.Executes view m) ↔ c'.height.toNat = d.closing) := by
  obtain ⟨c₁, hblocks, rfl⟩ := reaches_iff.mp h
  have hheight : c₁.height.toNat = d.height.toNat + (blocks ops).length :=
    Chain.height_takeBlocks hblocks
  have hsame : (c₁.withPending (queuedAfter [] ops)).height = c₁.height := rfl
  have hsum : d.closing = d.height.toNat + 1 + d.window := rfl
  rw [hsame] at hfirst hbefore
  have hne : blocks ops ≠ [] := by
    intro hnil
    rw [hnil, List.length_nil] at hheight
    omega
  obtain ⟨balance, hm, hbalance⟩ := machine_within hclosing hblocks hne (by omega)
  rw [Chain.machine_withPending, hm]
  obtain ⟨hdeadline, hwake, hcursor⟩ := getElem?_asleep hclosing balance
  refine ⟨rfl, rfl, hbalance, ⟨_, build_eq d.terms, ?_⟩, ?_⟩
  · dsimp only [compiled]
    refine ⟨hdeadline, hwake, hcursor, ?_⟩
    intro slot hslot₁ hslot₂ hslot₃
    exact getElem?_asleep_of_ne balance hslot₁ hslot₂ hslot₃
  · intro c' hmine
    rw [Chain.exists_executes_iff hmine]
    rw [Chain.mine_eq_takeBlock] at hmine
    have hnext := Chain.height_takeBlock hmine
    have hsleeping : (c₁.withPending (queuedAfter [] ops)).machine.status =
        .sleeping (UInt32.ofNat d.closing) := by
      rw [Chain.machine_withPending, hm]
      rfl
    rw [hsame] at hnext
    rw [Chain.awakeAt_of_sleeping hsleeping, decide_eq_true_iff, UInt32.le_iff_toNat_le,
      UInt32.toNat_ofNat_of_lt' (show _ < 2 ^ 32 by omega)]
    omega

/-- A history that can be done, with something that can be seen of the chain to which it leads. -/
theorem exists_reaches_of_map {α : Type} (d : Deployment) (ops : List Operation) (see : Chain → α)
    (seen : α) (h : (d.chain.performAll ops).toOption.map see = some seen) :
    ∃ c, d.Reaches ops c ∧ see c = seen := by
  cases hc : d.chain.performAll ops with
  | error a =>
    rw [hc] at h
    cases h
  | ok c =>
    rw [hc] at h
    exact ⟨c, ⟨_, build_eq d.terms, hc⟩, Option.some.inj h⟩

/-- A payment of less than nothing makes debts, but the campaign sleeps on. -/
theorem nothing_happens_before_the_window_closes_on_a_debt :
    ∃ c, smallCampaign.Reaches [.pay ⟨.account, .replicate 20 3⟩ (-9), .mine, .mine] c ∧
      c.machine.status = .sleeping 111 ∧ c.machine.balance.toInt = -4 := by
  obtain ⟨c, hc, hheight⟩ := exists_reaches_of_map smallCampaign
    [.pay ⟨.account, .replicate 20 3⟩ (-9), .mine, .mine] (·.height) 102 (by decide +kernel)
  have hlaw := nothing_happens_before_the_window_closes smallCampaign _ c (by decide) hc
    (by rw [hheight]; decide) (by rw [hheight]; decide)
  obtain ⟨hstatus, _, hbalance, _⟩ := hlaw
  exact ⟨c, hc, hstatus, hbalance⟩

end Deployment

end Pledge.Campaign
