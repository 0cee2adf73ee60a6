-- The places in its program where a campaign can be, with what is known at each
-- of them. Each instruction leads from one place to another, puts the campaign
-- to sleep or finishes it. The only fault is in the first block, where the
-- closing height can be out of range.
import Pledge.Proofs.Campaign.Deployment
import Pledge.Proofs.Lasting

namespace Pledge.Campaign

/-! ## Transactions that are found -/

/-- Register A names a transaction. -/
def Found (view : View) (m : Machine) : Prop := ∃ tx, Exec.txInA? view m = some tx

/-- A search finds nothing, or its result names a transaction. -/
theorem found_of_search {view : View} (m : Machine) (after : Word)
    (hsize : view.txs.size < 2 ^ 63) :
    Exec.searchResult view after = Exec.zeroQuad ∨
      Found view { m with a := Exec.searchResult view after } := by
  cases hfind : view.txs.findIdx? fun tx => after < tx.timestamp with
  | none =>
    left
    rw [Exec.searchResult, hfind]
  | some i =>
    right
    have hresult : Exec.searchResult view after = Exec.numbered (i + 1) := by
      rw [Exec.searchResult, hfind]
      rfl
    have hlt : i < view.txs.size := (Array.findIdx?_eq_some_iff_getElem.mp hfind).1
    rw [hresult]
    exact ⟨view.txs[i], Exec.txInA?_numbered (by omega) rfl (Array.getElem?_eq_getElem hlt)⟩

/-! ## Payments -/

/-- A payment is made and leaves the program alone, or the node gives up. -/
theorem pay_cases (view : View) (recipient : Address) (amount : Word) (m : Machine) :
    (∃ m', Exec.pay view recipient amount m = .ok () m' ∧ m'.data = m.data ∧ SamePlace m m') ∨
      ∃ a, Exec.pay view recipient amount m = .error (.abort a) m := by
  unfold Exec.pay
  split
  · rename_i m' hp
    left
    refine ⟨m', rfl, ?_, samePlace_change (.pay hp)⟩
    obtain ⟨_, ⟨_, rfl⟩ | ⟨_, rfl⟩⟩ := pay_eq_ok hp
    · rfl
    · rfl
  · rename_i a hp
    exact .inr ⟨a, rfl⟩

/-! ## The closing height -/

/-- A window behind any height ends at a height, or the height was in the upper half of all
heights. -/
theorem movedTimestamp_cases (height : UInt32) (minutes : Word) (h0 : 0 ≤ minutes.toInt)
    (hmost : minutes.toInt ≤ 43200) (m : Machine) :
    (∃ wake : Nat, wake < 2 ^ 32 ∧ wake ≤ height.toNat + 43200 ∧
      Exec.movedTimestamp (timestamp height 0) minutes m =
        .ok (timestamp (UInt32.ofNat wake) 0) m) ∨
    2 ^ 31 ≤ height.toNat ∧
      Exec.movedTimestamp (timestamp height 0) minutes m =
        .error (.fault .timestampOverflow) m := by
  by_cases hlow : height.toNat < 2 ^ 31
  · left
    refine ⟨height.toNat + minutes.toInt.toNat, by omega, by omega, ?_⟩
    exact Exec.movedTimestamp_of_lt hlow (by omega) (by omega)
  · have hhigh : 2 ^ 31 ≤ height.toNat := by omega
    have hlt := height.toNat_lt
    have hfits : Word.Fits (height.toNat - 2 ^ 32 + minutes.toInt) := by
      unfold Word.Fits
      omega
    -- Timestamps of such heights are negative.
    rw [Exec.movedTimestamp_timestamp, signedHeight_of_le hhigh, if_pos hfits]
    by_cases hneg : (height.toNat : Int) - 2 ^ 32 + minutes.toInt < 0
    · exact .inr ⟨hhigh, Exec.startOf_of_neg hneg⟩
    · left
      refine ⟨height.toNat + minutes.toInt.toNat - 2 ^ 32, by omega, by omega, ?_⟩
      exact Exec.startOf_of_lt (by omega) (by omega)

namespace Deployment

variable {d : Deployment} {view : View} {m m' : Machine}

/-! ## Places -/

/-- In its first block the campaign is before one of the instructions that compute its closing
height. -/
inductive Opening (d : Deployment) (view : View) (m : Machine) : Prop
  | noteCreation {v : Var → Word} (h : Running d.terms.awardee v 0 m)
      (hwindow : v .windowMinutes = d.terms.window)
  | noteBlock {v : Var → Word} (h : Running d.terms.awardee v 7 m)
      (hwindow : v .windowMinutes = d.terms.window)
  | addWindow {v : Var → Word} (h : Running d.terms.awardee v 14 m)
      (hwindow : v .windowMinutes = d.terms.window)
      (hdeadline : v .deadline = timestamp view.height 0)
  | copyDeadline {v : Var → Word} {wake : Nat} (h : Running d.terms.awardee v 29 m)
      (hlt : wake < 2 ^ 32) (hwake : wake ≤ d.height.toNat + 43201)
      (hdeadline : v .deadline = timestamp (UInt32.ofNat wake) 0)
  | shiftDeadline {v : Var → Word} {wake : Nat} (h : Running d.terms.awardee v 38 m)
      (hlt : wake < 2 ^ 32) (hwake : wake ≤ d.height.toNat + 43201)
      (hdeadline : v .wakeHeight = timestamp (UInt32.ofNat wake) 0)
  | sleep {v : Var → Word} {wake : Nat} (h : Running d.terms.awardee v 51 m)
      (hlt : wake < 2 ^ 32) (hwake : wake ≤ d.height.toNat + 43201)
      (hvalue : v .wakeHeight = Int64.ofNat wake)

/-- It has woken, and looks at its goal. -/
inductive Deciding (d : Deployment) (m : Machine) : Prop
  | noteBalance {v : Var → Word} (h : Running d.terms.awardee v 56 m)
  | compareGoal {v : Var → Word} (h : Running d.terms.awardee v 63 m)
  | loadAwardee {v : Var → Word} (h : Running d.terms.awardee v 73 m)
  | payAward {v : Var → Word} (h : Running d.terms.awardee v 84 m)
      (hb : m.b = d.terms.awardee.toWords)
  | beginRefund {v : Var → Word} (h : Running d.terms.awardee v 88 m)

/-- It is in the loop of the refund. Between the search and the payment a transaction is found. -/
inductive Looping (d : Deployment) (view : View) (m : Machine) : Prop
  | search {v : Var → Word} (h : Running d.terms.awardee v 89 m)
  | testResult {v : Var → Word} (h : Running d.terms.awardee v 96 m)
      (hfound : m.a = Exec.zeroQuad ∨ Found view m)
  | branchOnResult {v : Var → Word} (h : Running d.terms.awardee v 103 m)
      (hfound : v .exhausted = 0 → Found view m)
  | noteTimestamp {v : Var → Word} (h : Running d.terms.awardee v 110 m) (hfound : Found view m)
  | compareDeadline {v : Var → Word} (h : Running d.terms.awardee v 117 m)
      (hfound : Found view m)
  | noteKind {v : Var → Word} (h : Running d.terms.awardee v 128 m) (hfound : Found view m)
  | compareKind {v : Var → Word} (h : Running d.terms.awardee v 135 m) (hfound : Found view m)
  | noteAmount {v : Var → Word} (h : Running d.terms.awardee v 145 m) (hfound : Found view m)
  | loadSender {v : Var → Word} (h : Running d.terms.awardee v 152 m) (hfound : Found view m)
  | payBack {v : Var → Word} {sender : Address} (h : Running d.terms.awardee v 155 m)
      (hb : m.b = sender.toWords)
  | again {v : Var → Word} (h : Running d.terms.awardee v 162 m)

/-- The machine of a campaign is before an instruction of its program. -/
inductive AtPoint (d : Deployment) (view : View) (m : Machine) : Prop
  | opening (hheight : view.height.toNat = d.height.toNat + 1) (h : d.Opening view m)
  | deciding (h : d.Deciding m)
  | looping (h : d.Looping view m)
  | finish {v : Var → Word} {position : Nat} (h : Running d.terms.awardee v position m)
      (hi : listing.lookup position = some .finish)

/-- Where an instruction of a campaign leads. -/
inductive Leads (d : Deployment) (view : View) : EStateM.Result Halt Machine Flow → Prop
  | next {m : Machine} (h : d.AtPoint view m) : Leads d view (.ok .next m)
  | sleep {m : Machine} {v : Var → Word} {wake : UInt32} (h : Running d.terms.awardee v 56 m)
      (hheight : view.height.toNat = d.height.toNat + 1)
      (hwake : wake.toNat ≤ d.height.toNat + 43201) : Leads d view (.ok (.sleep wake) m)
  | finish (m : Machine) : Leads d view (.ok .finish m)
  | overflow {m : Machine} (h : 2 ^ 31 ≤ d.height.toNat + 1) (hh : m.handler = none) :
      Leads d view (.error (.fault .timestampOverflow) m)
  | abort (a : Abort) (m : Machine) : Leads d view (.error (.abort a) m)

/-! ## One instruction -/

/-- The instruction that adds the window can overflow, and the last one puts the campaign to
sleep. -/
theorem Opening.step (h : d.Opening view m) (hheight : view.height.toNat = d.height.toNat + 1) :
    d.Leads view (Exec.step view m) := by
  cases h with
  | noteCreation h hwindow =>
    rw [h.step_ask rfl rfl]
    exact .next (.opening hheight (.noteBlock (h.goOn _ 7) hwindow))
  | noteBlock h hwindow =>
    rw [h.step_ask rfl rfl]
    exact .next (.opening hheight (.addWindow (h.goOn _ 14) hwindow rfl))
  | addWindow h hwindow hdeadline =>
    obtain ⟨heq, hleast, hmost⟩ := d.window_bounds
    rcases movedTimestamp_cases view.height d.terms.window (by omega) (by omega) m with
      ⟨wake, hlt, hwake, ht⟩ | ⟨hhigh, ht⟩
    · rw [← hwindow, ← hdeadline] at ht
      rw [step_addWindow h ht]
      exact .next (.opening hheight (.copyDeadline (h.goOn _ 29) hlt (by omega) rfl))
    · rw [← hwindow, ← hdeadline] at ht
      rw [step_addWindow_error h ht]
      exact .overflow (by omega) h.handler
  | copyDeadline h hlt hwake hdeadline =>
    rw [step_copy h]
    exact .next (.opening hheight (.shiftDeadline (h.goOn _ 38) hlt hwake hdeadline))
  | shiftDeadline h hlt hwake hdeadline =>
    rw [step_shift h hdeadline hlt]
    exact .next (.opening hheight (.sleep (h.goOn _ 51) hlt hwake rfl))
  | @sleep v wake h hlt hwake hvalue =>
    rw [step_sleep h hvalue hlt]
    refine .sleep (h.goOn v 56) hheight ?_
    rw [UInt32.toNat_ofNat_of_lt' hlt]
    exact hwake

/-- Where both instructions that pay lead: behind themselves, if the node does not give up. -/
theorem leads_of_pay {v : Var → Word} {position size : Nat} {recipient : Address} {amount : Word}
    {f : Function} {args : Arguments} {ws : List Word} (h : Running d.terms.awardee v position m)
    (hi : listing.lookup position = some (.call f args))
    (ha : Exec.argumentWords args m = .ok ws m)
    (hcall : Exec.call view f ws m = (Exec.pay view recipient amount >>= fun _ => pure 0) m)
    (hsize : (InstrWith.call f args : Instr).size = size)
    (hnext : ∀ m', Running d.terms.awardee v (position + size) m' → d.AtPoint view m') :
    d.Leads view (Exec.step view m) := by
  rcases pay_cases view recipient amount m with ⟨m', hp, hdata, hplace⟩ | ⟨a, hp⟩
  · rw [Exec.bind_of_ok hp] at hcall
    rw [h.step hi, Exec.execute_call ha hcall, hsize]
    refine .next (hnext _ ⟨?_, ?_, ?_, rfl⟩)
    · exact hplace.code.trans h.code
    · exact hdata.trans h.data
    · exact hplace.handler.trans h.handler
  · rw [Exec.bind_of_error hp] at hcall
    rw [h.step_call_error hi ha hcall]
    exact .abort a m

theorem Deciding.step (view : View) (h : d.Deciding m) : d.Leads view (Exec.step view m) := by
  cases h with
  | noteBalance h =>
    rw [h.step_ask rfl rfl]
    exact .next (.deciding (.compareGoal (h.goOn _ 63)))
  | @compareGoal v h =>
    by_cases hgoal : Comparison.lt.holds (v .finalBalance) (v .goalAmount) = true
    · rw [h.step_taken rfl hgoal rfl]
      exact .next (.deciding (.beginRefund (h.goOn v 88)))
    · rw [h.step_passed rfl (Bool.eq_false_of_not_eq_true hgoal)]
      exact .next (.deciding (.loadAwardee (h.goOn v 73)))
  | loadAwardee h =>
    rw [step_loadAwardee h]
    exact .next (.deciding (.payAward ⟨h.code, rfl, h.handler, rfl⟩ rfl))
  | payAward h hb =>
    refine leads_of_pay h rfl rfl (call_payAll hb) rfl ?_
    intro m' h'
    exact .finish h' rfl
  | beginRefund h =>
    rw [h.step rfl]
    exact .next (.looping (.search ⟨h.code, h.data, h.handler, rfl⟩))

theorem Looping.step (h : d.Looping view m) (hsize : view.txs.size < 2 ^ 63) :
    d.Leads view (Exec.step view m) := by
  cases h with
  | @search v h =>
    rw [h.step_tell rfl (Exec.call_findTxAfter (v .cursor)) rfl]
    exact .next (.looping
      (.testResult ⟨h.code, rfl, h.handler, rfl⟩ (found_of_search m _ hsize)))
  | testResult h hfound =>
    rw [h.step_ask rfl rfl]
    refine .next (.looping (.branchOnResult (h.goOn _ 103) ?_))
    intro hzero
    rcases hfound with hnone | hfound
    · have hone : Exec.truth (m.a == Exec.zeroQuad) = 1 := by
        rw [hnone]
        rfl
      exact absurd (hone.symm.trans hzero) (by decide)
    · exact hfound
  | @branchOnResult v h hfound =>
    by_cases hzero : v .exhausted = 0
    · rw [h.step_zero rfl hzero rfl]
      exact .next (.looping (.noteTimestamp (h.goOn v 110) (hfound hzero)))
    · rw [h.step_nonzero rfl hzero]
      exact .next (.finish (h.goOn v 109) rfl)
  | noteTimestamp h hfound =>
    obtain ⟨tx, htx⟩ := hfound
    rw [h.step_ask rfl (Exec.fromTx_eq htx)]
    exact .next (.looping (.compareDeadline (h.goOn _ 117) ⟨tx, htx⟩))
  | @compareDeadline v h hfound =>
    by_cases hearly : Comparison.lt.holds (v .cursor) (v .deadline) = true
    · rw [h.step_taken rfl hearly rfl]
      exact .next (.looping (.noteKind (h.goOn v 128) hfound))
    · rw [h.step_passed rfl (Bool.eq_false_of_not_eq_true hearly)]
      exact .next (.finish (h.goOn v 127) rfl)
  | noteKind h hfound =>
    obtain ⟨tx, htx⟩ := hfound
    rw [h.step_ask rfl (Exec.fromTx_eq htx)]
    exact .next (.looping (.compareKind (h.goOn _ 135) ⟨tx, htx⟩))
  | @compareKind v h hfound =>
    by_cases hother : Comparison.ne.holds (v .txKind) (v .paymentKind) = true
    · rw [h.step_taken rfl hother rfl]
      exact .next (.looping (.search (h.goOn v 89)))
    · rw [h.step_passed rfl (Bool.eq_false_of_not_eq_true hother)]
      exact .next (.looping (.noteAmount (h.goOn v 145) hfound))
  | noteAmount h hfound =>
    obtain ⟨tx, htx⟩ := hfound
    rw [h.step_ask rfl (Exec.fromTx_eq htx)]
    exact .next (.looping (.loadSender (h.goOn _ 152) ⟨tx, htx⟩))
  | loadSender h hfound =>
    obtain ⟨tx, htx⟩ := hfound
    rw [h.step_do rfl (call_txSender htx) rfl]
    exact .next (.looping (.payBack ⟨h.code, rfl, h.handler, rfl⟩ rfl))
  | payBack h hb =>
    refine leads_of_pay h rfl (h.argumentWords_one .paymentAmount) (call_pay hb _) rfl ?_
    intro m' h'
    exact .looping (.again h')
  | again h =>
    rw [h.step rfl]
    exact .next (.looping (.search ⟨h.code, h.data, h.handler, rfl⟩))

namespace AtPoint

/-- Each instruction leads on, to sleep or to the end, or to the one fault. -/
theorem leads_of_step (h : d.AtPoint view m) (hsize : view.txs.size < 2 ^ 63)
    {r : EStateM.Result Halt Machine Flow} (hs : Exec.step view m = r) : d.Leads view r := by
  rw [← hs]
  cases h with
  | opening hheight h => exact h.step hheight
  | deciding h => exact h.step view
  | looping h => exact h.step hsize
  | finish h hi =>
    rw [h.step_finish hi]
    exact .finish m

/-! ## One activation -/

/-- No campaign has a handler, so instructions in a row go from one of its places to another. -/
theorem continues {n : Nat} (hc : Continues view n m m') (hsize : view.txs.size < 2 ^ 63)
    (h : d.AtPoint view m) : d.AtPoint view m' := by
  induction hc with
  | none => exact h
  | next hs _ ih =>
    cases h.leads_of_step hsize hs with
    | next h₁ => exact ih h₁
  | handled hs hh _ ih =>
    cases h.leads_of_step hsize hs with
    | overflow _ hnone =>
      rw [hnone] at hh
      cases hh

end AtPoint

end Deployment

end Pledge.Campaign
