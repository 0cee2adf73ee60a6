-- The faults of a campaign, for every history: it runs out of instructions, or
-- it was deployed so high that its closing height is out of range.
import Pledge.Proofs.Campaign.ControlPoints
import Pledge.Proofs.Campaign.Window
import Pledge.Proofs.Permanence

namespace Pledge.Campaign.Deployment

variable {d : Deployment} {view : View} {m m' : Machine} {c c' : Chain} {b : Block}

/-- The faults that a campaign can have. -/
def CanFault (d : Deployment) (f : Fault) : Prop :=
  f = .timestampOverflow ∧ 2 ^ 31 ≤ d.height.toNat + 1 ∨ f = .stepLimit

/-! ## Between blocks -/

/-- What a campaign is doing after the block of this height. It sleeps at most until the longest
window is over. -/
inductive Stage (d : Deployment) (height : UInt32) (m : Machine) : Prop
  | deployed {balance : Word} (hheight : height = d.height)
      (hm : m = Campaign.deployed d.terms d.creator (timestamp d.height 0) balance)
  | asleep {v : Var → Word} {wake : UInt32} (h : Running d.terms.awardee v 56 m)
      (hstatus : m.status = .sleeping wake) (hwake : wake.toNat ≤ d.height.toNat + 43201)
      (hheight : height.toNat ≤ d.height.toNat + 43201)
  | done (hd : m.isDone = true) (hfault : ∀ f, m.fault? = some f → d.CanFault f)

/-- Blocks are added to the chain of a campaign, none of them too long to be numbered. -/
structure OnCourse (d : Deployment) (c : Chain) : Prop where
  stage : d.Stage c.height c.machine
  size : c.txs.size + d.height.toNat * 2 ^ 32 ≤ (c.height.toNat + 1) * 2 ^ 32

theorem onCourse_chain (d : Deployment) : d.OnCourse d.chain := by
  refine ⟨.deployed d.height_chain d.machine_chain, ?_⟩
  have hone : d.chain.txs.size = 1 := rfl
  rw [height_chain, hone]
  omega

theorem stage_of_fault {height : UInt32} {f : Fault} (hf : d.CanFault f) (m : Machine) :
    d.Stage height { m with status := .faulted f } := by
  refine .done rfl ?_
  intro f' heq
  cases heq
  exact hf

/-- Where an activation comes to rest, the campaign sleeps or is done. -/
theorem AtPoint.rests (h : d.AtPoint view m) (hsize : view.txs.size < 2 ^ 63)
    (hr : Rests view m m') : d.Stage view.height m' := by
  cases hr with
  | limit => exact stage_of_fault (.inr rfl) m
  | sleep hs =>
    cases h.leads_of_step hsize hs with
    | sleep hrun hheight hwake =>
      exact .asleep ⟨hrun.code, hrun.data, hrun.handler, hrun.pc⟩ rfl hwake (by omega)
  | stop hs => cases h.leads_of_step hsize hs
  | finish hs hf =>
    have hstatus : m'.status = .finished := (Inherits.finish hf).2
    refine .done (by simp [Machine.isDone, hstatus]) ?_
    intro f heq
    simp [Machine.fault?, hstatus] at heq
  | fault hs hh =>
    cases h.leads_of_step hsize hs with
    | overflow hhigh => exact stage_of_fault (.inl ⟨rfl, hhigh⟩) _

namespace OnCourse

/-- A block that is received is short enough. -/
theorem size_received (h : d.OnCourse c) {balance : Word} {txs : Array Tx}
    (hh : c.height.toNat + 1 < 2 ^ 32)
    (hr : Chain.receive (c.height + 1) c.machine.balance c.txs 0 b = .ok (balance, txs)) :
    txs.size + d.height.toNat * 2 ^ 32 ≤ ((c.height + 1).toNat + 1) * 2 ^ 32 := by
  have hlen := Chain.length_lt_of_receive hr (by omega)
  have hmore : txs.size = c.txs.size + b.length := by
    simp [(Chain.receive_eq_ok hr).2, Chain.length_stamp]
  have hsize := h.size
  rw [hmore, Chain.toNat_succ hh]
  omega

/-- A campaign that wakes is at the beginning of its program, or at the place where it fell
asleep. -/
theorem atPoint (h : d.OnCourse c) {balance : Word} {txs : Array Tx}
    (hh : c.height.toNat + 1 < 2 ^ 32)
    (hr : Chain.receive (c.height + 1) c.machine.balance c.txs 0 b = .ok (balance, txs))
    (hawake : c.machine.awakeAt (c.height + 1) = true) :
    txs.size < 2 ^ 63 ∧
      d.AtPoint ⟨c.height + 1, txs⟩ { c.machine with balance := balance } := by
  have hsucc : (c.height + 1).toNat = c.height.toNat + 1 := Chain.toNat_succ hh
  have hsize := h.size_received hh hr
  rw [hsucc] at hsize
  cases h.stage with
  | deployed hheight hm =>
    rw [hheight] at hsize hsucc ⊢
    rw [hm]
    have hrun := running_deployed d.terms d.creator (timestamp d.height 0) balance
    exact ⟨by omega, .opening hsucc (.noteCreation hrun rfl)⟩
  | asleep hrun hstatus hwake hheight =>
    exact ⟨by omega, .deciding (.noteBalance ⟨hrun.code, hrun.data, hrun.handler, hrun.pc⟩)⟩
  | done hd hfault =>
    rw [Chain.awakeAt_of_done hd] at hawake
    cases hawake

/-- A campaign stays on course from block to block. -/
theorem takeBlock (h : d.OnCourse c) (hb : c.takeBlock b = .ok c') : d.OnCourse c' := by
  obtain ⟨hh, balance, m, hr, ha, rfl⟩ := Chain.takeBlock_inv hb
  refine ⟨?_, h.size_received hh hr⟩
  by_cases hawake : c.machine.awakeAt (c.height + 1) = true
  · obtain ⟨hsize, hpoint⟩ := h.atPoint hh hr hawake
    rw [Chain.activate_of_awake hawake] at ha
    obtain ⟨k, m₁, hc, hrests⟩ := Machine.rests_of_runFor ha
    exact (hpoint.continues hc hsize).rests hsize hrests
  · have hasleep := Bool.eq_false_of_not_eq_true hawake
    rw [Chain.activate_of_asleep hasleep] at ha
    cases ha
    cases h.stage with
    | deployed hheight hm =>
      rw [hm] at hawake
      exact absurd rfl hawake
    | @asleep v wake hrun hstatus hwake hheight =>
      rw [Chain.awakeAt_of_sleeping hstatus, decide_eq_true_iff, UInt32.le_iff_toNat_le] at hawake
      have hlow : (c.height + 1).toNat ≤ d.height.toNat + 43201 := by omega
      exact .asleep ⟨hrun.code, hrun.data, hrun.handler, hrun.pc⟩ hstatus hwake hlow
    | done hd hfault => exact .done hd hfault

theorem of_reaches {ops : List Operation} (h : d.Reaches ops c) : d.OnCourse c := by
  obtain ⟨c₁, hblocks, rfl⟩ := reaches_iff.mp h
  have hlast : d.OnCourse c₁ :=
    Chain.takeBlocks_keeps (fun hc hb => hc.takeBlock hb) d.onCourse_chain hblocks
  exact ⟨hlast.stage, hlast.size⟩

theorem canFault (h : d.OnCourse c) {f : Fault} (hf : c.machine.fault? = some f) :
    d.CanFault f := by
  cases h.stage with
  | deployed hheight hm =>
    rw [hm] at hf
    cases hf
  | asleep hrun hstatus hwake hheight => simp [Machine.fault?, hstatus] at hf
  | done hd hfault => exact hfault f hf

/-- The only instruction that fails is the one that computes the closing height. -/
theorem overflow_of_executes (h : d.OnCourse c) (he : c.Executes view m) {f : Fault}
    (hs : Exec.step view m = .error (.fault f) m') :
    f = .timestampOverflow ∧ 2 ^ 31 ≤ d.height.toNat + 1 := by
  obtain ⟨hh, balance, txs, hr, rfl, hawake, n, _, hc⟩ := he
  obtain ⟨hsize, hpoint⟩ := h.atPoint hh hr hawake
  cases (hpoint.continues hc hsize).leads_of_step hsize hs with
  | overflow hhigh => exact ⟨rfl, hhigh⟩

end OnCourse

/-! ## The law of faults -/

/-- A campaign has two faults only, whatever its terms, creator, funding and height are and whatever
is done to it: the overflow of a timestamp, if it was deployed so high that the next height is in
the upper half of all heights, and the limit of instructions. No other fault is even raised by an
instruction. -/
theorem campaigns_have_two_faults (d : Deployment) (ops : List Operation) (c : Chain)
    (h : d.Reaches ops c) :
    (∀ f, c.machine.fault? = some f →
      (f = .timestampOverflow ∧ f.message = "timestamp overflow" ∧ 2 ^ 31 ≤ d.height.toNat + 1) ∨
        (f = .stepLimit ∧ f.message = "step limit reached")) ∧
    ∀ view m f m', c.Executes view m → Exec.step view m = .error (.fault f) m' →
      f = .timestampOverflow ∧ 2 ^ 31 ≤ d.height.toNat + 1 := by
  have hcourse : d.OnCourse c := .of_reaches h
  constructor
  · intro f hf
    rcases hcourse.canFault hf with ⟨rfl, hhigh⟩ | rfl
    · exact .inl ⟨rfl, rfl, hhigh⟩
    · exact .inr ⟨rfl, rfl⟩
  · intro view m f m' he hs
    exact hcourse.overflow_of_executes he hs

/-- A campaign deployed one block below the upper half of all heights. -/
def highCampaign : Deployment := { smallCampaign with height := 0x7fffffff }

/-- The first block ends such a campaign, whatever it has been given. -/
theorem campaigns_have_two_faults_and_one_is_of_height :
    ∃ c, highCampaign.Reaches [.pay ⟨.account, .replicate 20 3⟩ 9, .mine, .mine] c ∧
      c.machine.fault? = some .timestampOverflow ∧ 2 ^ 31 ≤ highCampaign.height.toNat + 1 := by
  obtain ⟨c, hc, hfault⟩ := exists_reaches_of_map highCampaign
    [.pay ⟨.account, .replicate 20 3⟩ 9, .mine, .mine] (·.machine.fault?)
    (some .timestampOverflow) (by decide +kernel)
  obtain ⟨hlaw, _⟩ := campaigns_have_two_faults highCampaign _ c hc
  rcases hlaw _ hfault with ⟨_, _, hhigh⟩ | ⟨heq, _⟩
  · exact ⟨c, hc, hfault, hhigh⟩
  · cases heq

end Pledge.Campaign.Deployment
