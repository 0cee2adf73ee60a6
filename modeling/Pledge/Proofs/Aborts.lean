-- When a block cannot be mined. As long as the money fits in a word, only a
-- height can overflow: that of the chain, or one that the program asks for.
import Pledge.Proofs.Conservation
import Pledge.Proofs.Container
import Pledge.Proofs.Lasting

namespace Pledge

/-- A machine that has no debt, and no more data than there are slots. -/
structure WithinLimits (m : Machine) : Prop where
  solvent : 0 ≤ m.balance.toInt
  countable : m.data.size < 2 ^ 32

namespace WithinLimits

variable {view : View} {m m' : Machine} {a : Abort}

/-! ## One instruction -/

theorem not_debt (h : WithinLimits m) : ¬ m.balance < 0 := by
  have := h.solvent
  rw [Int64.lt_iff_toInt_lt, Int64.toInt_zero]
  omega

theorem not_trouble (h : WithinLimits m) : ¬ Trouble m (.abort a) := by
  intro ht
  cases ht with
  | debt hdebt => exact h.not_debt hdebt
  | overlong hlong =>
    have := h.countable
    omega

theorem changes (h : WithinLimits m) (hc : Changes view m m') : WithinLimits m' where
  solvent := (conserves_changes hc).solvent h.solvent
  countable := (samePlace_changes hc).size ▸ h.countable

theorem step (h : WithinLimits m) (view : View) : WithinLimits (leaves (Exec.step view m)) := by
  obtain ⟨m₁, hc, hs⟩ := Exec.leaves_step view m
  obtain ⟨hsolvent, hcountable⟩ := h.changes hc
  exact ⟨hs.balance ▸ hsolvent, hs.data ▸ hcountable⟩

/-- Within its limits, a machine aborts exactly at an instruction that overflows. -/
theorem step_eq_abort_iff (h : WithinLimits m) :
    (∃ m', Exec.step view m = .error (.abort a) m') ↔
      ∃ i, Instr.fetch m.code m.pc = .ok i ∧ Overflows view m i a := by
  constructor
  · rintro ⟨m', hs⟩
    rcases Exec.step_cases view m with ⟨_, _, hs'⟩ | ⟨i, hi, ⟨a', ha, hs'⟩ | ⟨_, m₁, hc, he⟩⟩
    · cases hs.symm.trans hs'
    · cases hs.symm.trans hs'
      exact ⟨i, hi, ha⟩
    · rw [hs] at he
      cases he with
      | trouble ht => exact absurd ht (h.changes hc).not_trouble
  · rintro ⟨i, hi, ha⟩
    rw [Exec.step_of_fetch hi]
    exact ⟨m, Exec.execute_of_overflows ha m.pc⟩

/-- All other instructions end well or with a fault. -/
theorem step_ok_or_fault (h : WithinLimits m)
    (hno : ∀ i a, Instr.fetch m.code m.pc = .ok i → ¬ Overflows view m i a) :
    (∃ flow m', Exec.step view m = .ok flow m') ∨
      ∃ f m', Exec.step view m = .error (.fault f) m' := by
  cases hs : Exec.step view m with
  | ok flow m' => exact .inl ⟨flow, m', rfl⟩
  | error e m' =>
    cases e with
    | fault f => exact .inr ⟨f, m', rfl⟩
    | abort a =>
      obtain ⟨i, hi, ho⟩ := h.step_eq_abort_iff.mp ⟨m', hs⟩
      exact absurd ho (hno i a hi)

theorem finish_ne_error (h : WithinLimits m) : m.finish view ≠ .error a := by
  intro hf
  unfold Machine.finish at hf
  cases hp : m.pay view.height m.creator m.balance with
  | error a' => exact h.not_debt (pay_eq_error hp).2
  | ok m₁ =>
    rw [hp] at hf
    cases hf

end WithinLimits

theorem kept_withinLimits : Kept WithinLimits where
  step view _ h := h.step view
  handler h _ := ⟨h.solvent, h.countable⟩

/-! ## One block -/

namespace Chain

variable {c : Chain} {view : View} {m : Machine} {a : Abort}

/-- A block whose transfers are received aborts where its machine aborts. -/
theorem mine_eq_error_iff {balance : Word} {txs : Array Tx} (hh : c.height.toNat + 1 < 2 ^ 32)
    (hr : receive (c.height + 1) c.machine.balance c.txs 0 c.pending.toList = .ok (balance, txs)) :
    c.mine = .error a ↔ ∃ view m, c.Executes view m ∧
      ((∃ m', Exec.step view m = .error (.abort a) m') ∨
        ∃ m', Exec.step view m = .ok .finish m' ∧ m'.finish view = .error a) := by
  have hmine : c.mine = .error a ↔
      activate ⟨c.height + 1, txs⟩ { c.machine with balance := balance } = .error a := by
    rw [mine_eq_takeBlock, takeBlock_eq hh, hr]
    exact Except.map_eq_error
  rw [hmine]
  constructor
  · intro ha
    unfold activate at ha
    split at ha
    · rename_i hawake
      obtain ⟨n, m, hn, hc, hend⟩ := Machine.runFor_eq_error.mp ha
      exact ⟨_, m, ⟨hh, balance, txs, hr, rfl, hawake, n, hn, hc⟩, hend⟩
    · cases ha
  · rintro ⟨view, m, ⟨_, balance', txs', hr', rfl, hawake, n, hn, hc⟩, hend⟩
    cases hr.symm.trans hr'
    rw [activate_of_awake]
    · exact Machine.runFor_eq_error.mpr ⟨n, m, hn, hc, hend⟩
    · exact hawake

/-- There is no block behind the last height. -/
theorem mine_of_last (h : c.height.toNat = 0xffffffff) : c.mine = .error .heightOverflow := by
  unfold mine
  rw [if_pos (by omega)]
  rfl

/-- In a regular block, a machine is within its limits before each instruction. -/
theorem withinLimits_of_executes (h : Regular c.machine.balance.toInt [c.pending.toList])
    (hsize : c.machine.data.size < 2 ^ 32) (he : c.Executes view m) : WithinLimits m := by
  obtain ⟨_, balance, txs, hr, _, _, n, _, hc⟩ := he
  have hbalance := (receive_eq_ok hr).1
  have hpending : 0 ≤ total c.pending.toList := by
    apply total_nonneg
    simpa using h.amounts
  have hnonneg := h.nonneg
  have hstart : WithinLimits { c.machine with balance := balance } := by
    refine ⟨?_, hsize⟩
    show 0 ≤ balance.toInt
    omega
  exact kept_withinLimits.continues hc hstart

/-- A regular block aborts exactly if there is no height for it, or if the machine executes an
instruction in it that overflows. -/
theorem mine_eq_error_of_regular (h : Regular c.machine.balance.toInt [c.pending.toList])
    (hsize : c.machine.data.size < 2 ^ 32) :
    c.mine = .error a ↔
      (c.height.toNat = 0xffffffff ∧ a = .heightOverflow) ∨
      ∃ view m i, c.Executes view m ∧ Instr.fetch m.code m.pc = .ok i ∧
        Overflows view m i a := by
  have hwithin {view : View} {m : Machine} (he : c.Executes view m) : WithinLimits m :=
    withinLimits_of_executes h hsize he
  have hlt := c.height.toNat_lt
  by_cases hlast : c.height.toNat = 0xffffffff
  · rw [mine_of_last hlast]
    constructor
    · intro ha
      cases ha
      exact .inl ⟨hlast, rfl⟩
    · rintro (⟨_, rfl⟩ | ⟨view, m, i, ⟨hheight, _⟩, _⟩)
      · rfl
      · omega
  · rw [mine_eq_error_iff (by omega) (receive_of_regular h)]
    constructor
    · rintro ⟨view, m, he, hs | ⟨m', hs, hf⟩⟩
      · obtain ⟨i, hi, ho⟩ := (hwithin he).step_eq_abort_iff.mp hs
        exact .inr ⟨view, m, i, he, hi, ho⟩
      · have hend : WithinLimits m' := kept_withinLimits.of_step hs (hwithin he)
        exact absurd hf hend.finish_ne_error
    · rintro (⟨hmax, _⟩ | ⟨view, m, i, he, hi, ho⟩)
      · exact absurd hmax hlast
      · exact ⟨view, m, he, .inl ((hwithin he).step_eq_abort_iff.mpr ⟨i, hi, ho⟩)⟩

end Chain

/-! ## Every history -/

theorem paid_nonneg {m : Machine} (h : m.PaysPositive) : 0 ≤ paid m.payments := by
  unfold Machine.PaysPositive at h
  unfold paid
  simp only [← Array.mem_toList_iff] at h
  generalize m.payments.toList = ps at h
  induction ps with
  | nil => simp
  | cons p ps ih =>
    have hp := h p List.mem_cons_self
    have hps := ih fun q hq => h q (List.mem_cons_of_mem p hq)
    rw [List.map_cons, List.sum_cons]
    omega

namespace Chain

/-- What a history leaves behind, if nobody gives less than nothing and the money of all together
fits in a word: the next block is regular. -/
theorem regular_of_performAll {container : Container} {creator : Address} {funding : Word}
    {height : UInt32} {ops : List Operation} {c : Chain}
    (h : (deploy container creator funding height).performAll ops = .ok c)
    (hfunding : 0 ≤ funding) (hamounts : ∀ t ∈ transfers ops, 0 ≤ t.amount)
    (htotal : funding.toInt + total (transfers ops) < 2 ^ 63)
    (hlength : c.pending.size < 2 ^ 32) :
    Regular c.machine.balance.toInt [c.pending.toList] := by
  obtain ⟨c₁, hblocks, rfl⟩ := (performAll_eq_ok rfl).mp h
  obtain ⟨hwealth, hpositive, hsolvent⟩ := wealth_takeBlocks hblocks
  simp only [Word.zero_le_iff] at hfunding hamounts
  have hall : mined ops ++ queuedAfter [] ops = transfers ops := mined_append ops
  have hpaid : 0 ≤ paid c₁.machine.payments :=
    paid_nonneg (hpositive fun p hp => absurd hp (Array.not_mem_empty p))
  have hbalance : c₁.machine.balance.toInt + paid c₁.machine.payments =
      funding.toInt + total (mined ops) := by
    simpa [Machine.wealth, deploy, Machine.deploy, paid, mined] using hwealth
  rw [← hall, total_append] at htotal
  refine ⟨?_, ?_, ?_, ?_⟩
  · exact hsolvent (fun t ht => hamounts t (mem_transfers_of_mem_mined ht)) hfunding
  · intro t ht
    apply hamounts t
    rw [← hall]
    exact List.mem_append_right _ (by simpa [withPending] using ht)
  · simp only [withPending, List.flatten_cons, List.flatten_nil, List.append_nil]
    omega
  · simpa using hlength

end Chain

/-- The data of a container that was wrapped or read can be counted. -/
theorem Container.Sealed.size_lt {c : Container} (h : c.Sealed) :
    (Wire.wordsOf c.data).size < 2 ^ 32 := by
  have hdata := h.data
  have hpages := c.header.dataPages.toInt_lt
  have hsize := Wire.size_wordsOnto_le #[] c.data
  unfold Wire.wordsOf
  simp only [Array.size_empty] at hsize
  omega

/-! ## The law of aborts -/

/-- Only heights overflow. Let a container be wrapped or read from bytes and deployed, let nobody
give less than nothing, and let all the money together fit in a word. Then a block cannot be mined
exactly if the chain is at its last height, or if the machine executes an instruction in it that
overflows: one that sleeps through the last height, or one that moves a timestamp out of the range
of words. Every other instruction ends well or with a fault. -/
theorem only_heights_overflow {container : Container} {creator : Address} {funding : Word}
    {height : UInt32} {ops : List Operation} {c : Chain}
    (haccepted : (∃ code data, Container.wrap code data = .ok container) ∨
      ∃ input, Container.ofBytes input = .ok container)
    (hfunding : 0 ≤ funding) (hamounts : ∀ t ∈ transfers ops, 0 ≤ t.amount)
    (htotal : funding.toInt + total (transfers ops) < 2 ^ 63)
    (h : (Chain.deploy container creator funding height).performAll ops = .ok c)
    (hlength : c.pending.size < 2 ^ 32) :
    (∀ a, c.mine = .error a ↔
      (c.height.toNat = 0xffffffff ∧ a = .heightOverflow) ∨
      ∃ view m i, c.Executes view m ∧ Instr.fetch m.code m.pc = .ok i ∧ Overflows view m i a) ∧
    ∀ view m, c.Executes view m →
      (∀ i a, Instr.fetch m.code m.pc = .ok i → ¬ Overflows view m i a) →
      (∃ flow m', Exec.step view m = .ok flow m') ∨
        ∃ f m', Exec.step view m = .error (.fault f) m' := by
  have hsealed : container.Sealed := by
    rcases haccepted with ⟨code, data, hwrap⟩ | ⟨input, hread⟩
    · exact Container.sealed_of_wrap hwrap
    · exact (Container.ofBytes_eq_ok.mp hread).1
  have hregular := Chain.regular_of_performAll h hfunding hamounts htotal hlength
  have hsize : c.machine.data.size < 2 ^ 32 := by
    rw [(lasting_size _).performAll h rfl]
    exact hsealed.size_lt
  refine ⟨fun a => Chain.mine_eq_error_of_regular hregular hsize, ?_⟩
  intro view m he hno
  exact (Chain.withinLimits_of_executes hregular hsize he).step_ok_or_fault hno

/-- A program that sleeps from block to block, up to the last one there is. One payment is mined on
the way, and another waits for the last block. -/
theorem only_heights_overflow_in_the_last_block :
    ∃ container c, Container.wrap [0x2a, 0x2a] [] = .ok container ∧
      (Chain.deploy container ⟨.account, .replicate 20 1⟩ 5 0xfffffffd).performAll
        [.pay ⟨.account, .replicate 20 2⟩ 7, .mine, .pay ⟨.account, .replicate 20 3⟩ 8] = .ok c ∧
      c.machine.balance = 12 ∧ c.pending.size = 1 ∧ c.mine = .error .heightOverflow ∧
      ∃ view m i, c.Executes view m ∧ Instr.fetch m.code m.pc = .ok i ∧
        Overflows view m i .heightOverflow := by
  have hwrap : Container.wrap [0x2a, 0x2a] [] = .ok ⟨⟨2, 0, 2, 0, 0, 0, 0⟩, [0x2a, 0x2a], []⟩ := rfl
  have hrun : (Chain.deploy ⟨⟨2, 0, 2, 0, 0, 0, 0⟩, [0x2a, 0x2a], []⟩
      ⟨.account, .replicate 20 1⟩ 5 0xfffffffd).performAll
        [.pay ⟨.account, .replicate 20 2⟩ 7, .mine, .pay ⟨.account, .replicate 20 3⟩ 8] =
      .ok _ := rfl
  have hlaw := only_heights_overflow (.inl ⟨_, _, hwrap⟩) (by decide) (by decide) (by decide)
    hrun (by decide)
  refine ⟨_, _, hwrap, hrun, rfl, rfl, rfl, ?_⟩
  rcases (hlaw.1 .heightOverflow).mp rfl with ⟨hlast, _⟩ | hexecutes
  · exact absurd hlast (by decide)
  · exact hexecutes

end Pledge
