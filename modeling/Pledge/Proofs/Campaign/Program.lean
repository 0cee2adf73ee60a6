-- The program of a campaign as it is deployed: its instructions with their
-- positions, and its data as named variables.
import Mathlib.Logic.Function.Basic
import Pledge.Campaign.Compile
import Pledge.Chain
import Pledge.Proofs.Campaign.Data
import Pledge.Proofs.Decoding
import Pledge.Proofs.Execution

namespace Pledge.Campaign

/-! ## Variables -/

inductive Var where
  | windowMinutes
  | goalAmount
  | deadline
  | wakeHeight
  | finalBalance
  | cursor
  | exhausted
  | txKind
  | paymentKind
  | paymentAmount
  deriving DecidableEq, Repr

def Var.slot : Var → UInt32
  | windowMinutes => Layout.standard.windowMinutes
  | goalAmount => Layout.standard.goalAmount
  | deadline => Layout.standard.deadline
  | wakeHeight => Layout.standard.wakeHeight
  | finalBalance => Layout.standard.finalBalance
  | cursor => Layout.standard.cursor
  | exhausted => Layout.standard.exhausted
  | txKind => Layout.standard.txKind
  | paymentKind => Layout.standard.paymentKind
  | paymentAmount => Layout.standard.paymentAmount

/-- The words of the data segment: the variables in the order of their slots, then the awardee. -/
def memory (awardee : Address) (v : Var → Word) : Array Word :=
  #[v .windowMinutes, v .goalAmount, v .deadline, v .wakeHeight, v .finalBalance, v .cursor,
    v .exhausted, v .txKind, v .paymentKind, v .paymentAmount, awardee.toWords.first,
    awardee.toWords.second, awardee.toWords.third, awardee.toWords.fourth]

/-- The variables as they are deployed. -/
def initialVars (t : Terms) : Var → Word
  | .windowMinutes => t.window
  | .goalAmount => t.goal.units
  | _ => 0

theorem getElem?_memory (awardee : Address) (v : Var → Word) (x : Var) :
    (memory awardee v)[x.slot.toNat]? = some (v x) := by
  cases x <;> rfl

theorem slot_lt_size_memory (awardee : Address) (v : Var → Word) (x : Var) :
    x.slot.toNat < (memory awardee v).size := by
  have hsize : (memory awardee v).size = 14 := rfl
  rw [hsize]
  cases x <;> decide

theorem set_memory (awardee : Address) (v : Var → Word) (x : Var) (w : Word) :
    (memory awardee v).set x.slot.toNat w (slot_lt_size_memory awardee v x) =
      memory awardee (Function.update v x w) := by
  cases x <;> rfl

/-- The data that a campaign is deployed with. -/
def initialData (t : Terms) : Bytes := Layout.standard.dataSegment Layout.fits_standard t

theorem initialData_eq_words (t : Terms) :
    initialData t = Wire.bytesOfWords (Layout.standard.words t) := Layout.dataSegment_eq _ t

theorem length_initialData (t : Terms) : (initialData t).length = 112 := by
  rw [initialData_eq_words]
  exact Wire.length_bytesOfWords _

/-- The data hold the variables. -/
theorem wordsOf_initialData (t : Terms) :
    Wire.wordsOf (initialData t) = memory t.awardee (initialVars t) := by
  rw [initialData_eq_words, Wire.wordsOf_bytesOfWords]
  rfl

/-! ## Code -/

/-- The instructions of a campaign with their positions. -/
def listing : List (Nat × Instr) := [
  (0, .callInto .creationTimestamp Var.cursor.slot .none),
  (7, .callInto .blockTimestamp Var.deadline.slot .none),
  (14, .callInto .addMinutes Var.deadline.slot (.two Var.deadline.slot Var.windowMinutes.slot)),
  (29, .copy Var.wakeHeight.slot Var.deadline.slot),
  (38, .immediate .shr Var.wakeHeight.slot 32),
  (51, .sleepUntil Var.wakeHeight.slot),
  (56, .callInto .currentBalance Var.finalBalance.slot .none),
  (63, .branch .lt Var.finalBalance.slot Var.goalAmount.slot 25),
  (73, .callValue (.loadRegister .b) 10),
  (84, .call .payAll .none),
  (87, .finish),
  (88, .setRestart),
  (89, .call .findTxAfter (.one Var.cursor.slot)),
  (96, .callInto (.isZero .a) Var.exhausted.slot .none),
  (103, .branchZero Var.exhausted.slot 7),
  (109, .finish),
  (110, .callInto .txTimestamp Var.cursor.slot .none),
  (117, .branch .lt Var.cursor.slot Var.deadline.slot 11),
  (127, .finish),
  (128, .callInto .txKind Var.txKind.slot .none),
  (135, .branch .ne Var.txKind.slot Var.paymentKind.slot (-46)),
  (145, .callInto .txAmount Var.paymentAmount.slot .none),
  (152, .call .txSender .none),
  (155, .call .pay (.one Var.paymentAmount.slot)),
  (162, .jump 89)]

/-- The code of every campaign. -/
def code : Bytes := listing.flatMap fun entry => Wire.toBytes entry.2

/-- Where the labels of the script land. -/
def labels : Labels where
  entries := [(checkKind, 128), (refundDonors, 88), (refundTx, 110), (txLoop, 89)]

theorem eq_ok_of_toOption {ε α : Type} {x : Except ε α} {a : α} (h : x.toOption = some a) :
    x = .ok a := by
  cases x with
  | error e => cases h
  | ok b =>
    cases h
    rfl

/-- Both passes of the assembler succeed on the script. -/
theorem assemble_script : (script Layout.standard).assemble = .ok ⟨code, labels⟩ :=
  eq_ok_of_toOption (by decide +kernel)

/-- The instructions of every campaign as they stand in its code. -/
def instrs : List RawInstr := Instr.rawsFrom 0 (listing.map Prod.snd)

theorem decodeAll_code : Instr.decodeAll code = .ok instrs := by
  have hcode : code = Instr.encodeAll (listing.map Prod.snd) := by
    unfold code Instr.encodeAll
    rw [List.flatMap_map]
  rw [hcode]
  exact Instr.decodeAll_encodeAll _

/-- Each instruction is found where the listing has it. -/
theorem fetch_listing {position : Nat} {i : Instr} (h : listing.lookup position = some i) :
    Instr.fetch code.toArray position = .ok i := by
  have hall : ∀ entry ∈ listing, (Instr.fetch code.toArray entry.1).toOption = some entry.2 := by
    decide +kernel
  obtain ⟨before, after, hsplit, _⟩ := List.lookup_eq_some_iff.mp h
  exact eq_ok_of_toOption (hall (position, i) (by simp [hsplit]))

/-! ## Container -/

def container (t : Terms) : Container where
  header := ⟨Container.formatVersion, 0, 167, 14, 0, 0, 0⟩
  code := code
  data := initialData t

@[simp]
theorem data_container (t : Terms) : (container t).data = initialData t := rfl

/-- The terms are in the data only. -/
theorem header_container (t t' : Terms) : (container t).header = (container t').header := by
  unfold container
  dsimp only

theorem code_container (t t' : Terms) : (container t).code = (container t').code := by
  unfold container
  dsimp only

theorem length_code : code.length = 167 := by decide +kernel

theorem wrap_segments (t : Terms) :
    Container.wrap code (initialData t) = .ok (container t) := by
  have hcode : Container.pageCount "code" code.length = .ok 167 := by
    rw [length_code]
    rfl
  have hdata : Container.pageCount "data"
      ((initialData t).length / Container.wordSize) = .ok 14 := by
    rw [length_initialData]
    rfl
  have haligned : ¬ (initialData t).length % Container.wordSize ≠ 0 := by
    rw [length_initialData]
    decide
  unfold Container.wrap
  rw [if_neg haligned, hcode, hdata]
  rfl

def compiled (t : Terms) : Compiled :=
  ⟨t, Layout.standard, ⟨code, labels⟩, initialData t, container t⟩

/-- Every campaign is built. -/
theorem build_eq (t : Terms) : build t = .ok (compiled t) := by
  have hassemble : (script Layout.standard).assemble.mapError Error.internal =
      .ok ⟨code, labels⟩ := Except.mapError_eq_ok.mpr assemble_script
  have hwrap : (Container.wrap code (initialData t)).mapError Error.internal =
      .ok (container t) := Except.mapError_eq_ok.mpr (wrap_segments t)
  unfold build
  refine Except.bind_eq_ok.mpr ⟨_, hassemble, ?_⟩
  exact Except.bind_eq_ok.mpr ⟨_, hwrap, rfl⟩

/-- The machine of a campaign as it is deployed. -/
def deployed (t : Terms) (creator : Address) (created balance : Word) : Machine where
  code := code.toArray
  data := memory t.awardee (initialVars t)
  a := Exec.zeroQuad
  b := Exec.zeroQuad
  pc := 0
  restart := 0
  handler := none
  callStack := []
  userStack := []
  status := .ready
  creator := creator
  created := created
  balance := balance
  payments := #[]

theorem wordsOf_container (t : Terms) :
    Wire.wordsOf (container t).data = memory t.awardee (initialVars t) := by
  rw [data_container, wordsOf_initialData]

theorem deploy_container (t : Terms) (creator : Address) (created balance : Word) :
    Machine.deploy (container t) creator created balance = deployed t creator created balance := by
  unfold Machine.deploy deployed
  rw [wordsOf_container]
  rfl

/-! ## Instructions -/

/-- The machine runs a campaign whose variables are `v`, and is at a position. No campaign has a
handler. -/
structure Running (awardee : Address) (v : Var → Word) (position : Nat) (m : Machine) : Prop where
  code : m.code = Campaign.code.toArray
  data : m.data = memory awardee v
  handler : m.handler = none
  pc : m.pc = position

theorem running_deployed (t : Terms) (creator : Address) (created balance : Word) :
    Running t.awardee (initialVars t) 0 (deployed t creator created balance) :=
  ⟨rfl, rfl, rfl, rfl⟩

/-- The machine at another position, with other variables. -/
def goOn (m : Machine) (awardee : Address) (v : Var → Word) (position : Nat) : Machine :=
  { m with data := memory awardee v, pc := position }

theorem goOn_goOn (m : Machine) (awardee : Address) (v v' : Var → Word) (position position' : Nat) :
    goOn (goOn m awardee v position) awardee v' position' = goOn m awardee v' position' := rfl

namespace Running

variable {awardee : Address} {v : Var → Word} {position : Nat} {m : Machine} {view : View}

theorem load (h : Running awardee v position m) (x : Var) :
    Exec.load x.slot.toNat m = .ok (v x) m := by
  unfold Exec.load
  rw [h.data, getElem?_memory]

theorem store (h : Running awardee v position m) (x : Var) (w : Word) :
    Exec.store x.slot.toNat w m =
      .ok () { m with data := memory awardee (Function.update v x w) } := by
  obtain ⟨code, data, a, b, pc, restart, handler, callStack, userStack, status, creator, created,
    balance, payments⟩ := m
  obtain ⟨_, hdata, _, _⟩ := h
  subst hdata
  unfold Exec.store
  rw [dif_pos (slot_lt_size_memory awardee v x), set_memory]

theorem goOn (h : Running awardee v position m) (v' : Var → Word) (position' : Nat) :
    Running awardee v' position' (goOn m awardee v' position') :=
  ⟨h.code, rfl, h.handler, rfl⟩

/-- Where the data stays, going on is a jump. -/
theorem goOn_eq (h : Running awardee v position m) (position' : Nat) :
    Campaign.goOn m awardee v position' = { m with pc := position' } := by
  rw [Campaign.goOn, ← h.data]

/-- The next instruction is the one of the listing. -/
theorem step (h : Running awardee v position m) {i : Instr}
    (hi : listing.lookup position = some i) :
    Exec.step view m = Exec.execute view position i m := by
  obtain ⟨hcode, _, _, rfl⟩ := h
  apply Exec.step_of_fetch
  rw [hcode]
  exact fetch_listing hi

/-- The argument of a call is a variable. -/
theorem argumentWords_one (h : Running awardee v position m) (x : Var) :
    Exec.argumentWords (.one x.slot) m = .ok [v x] m :=
  Exec.bind_eq_ok.mpr ⟨v x, m, h.load x, rfl⟩

theorem argumentWords_two (h : Running awardee v position m) (x y : Var) :
    Exec.argumentWords (.two x.slot y.slot) m = .ok [v x, v y] m := by
  refine Exec.bind_eq_ok.mpr ⟨v x, m, h.load x, ?_⟩
  exact Exec.bind_eq_ok.mpr ⟨v y, m, h.load y, rfl⟩

/-- A call without arguments that changes nothing, and whose word goes into a variable. -/
theorem step_ask (h : Running awardee v position m) {f : Function} {x : Var} {w : Word}
    (hi : listing.lookup position = some (.callInto f x.slot .none))
    (hf : Exec.call view f [] m = .ok w m) :
    Exec.step view m =
      .ok .next (Campaign.goOn m awardee (Function.update v x w) (position + 7)) := by
  rw [h.step hi]
  exact Exec.execute_callInto rfl hf (h.store x w)

/-- A call with a variable as its argument that leaves the data alone. -/
theorem step_tell (h : Running awardee v position m) {f : Function} {x : Var} {w : Word}
    {m₁ : Machine} (hi : listing.lookup position = some (.call f (.one x.slot)))
    (hf : Exec.call view f [v x] m = .ok w m₁) (hdata : m₁.data = m.data) :
    Exec.step view m = .ok .next (Campaign.goOn m₁ awardee v (position + 7)) := by
  rw [h.step hi, Campaign.goOn, ← h.data, ← hdata]
  exact Exec.execute_call (h.argumentWords_one x) hf

/-- A call without arguments that leaves the data alone. -/
theorem step_do (h : Running awardee v position m) {f : Function} {w : Word} {m₁ : Machine}
    (hi : listing.lookup position = some (.call f .none))
    (hf : Exec.call view f [] m = .ok w m₁) (hdata : m₁.data = m.data) :
    Exec.step view m = .ok .next (Campaign.goOn m₁ awardee v (position + 3)) := by
  rw [h.step hi, Campaign.goOn, ← h.data, ← hdata]
  exact Exec.execute_call rfl hf

/-- A call that fails. -/
theorem step_call_error (h : Running awardee v position m) {f : Function} {args : Arguments}
    {ws : List Word} {e : Halt} {m₁ : Machine}
    (hi : listing.lookup position = some (.call f args))
    (ha : Exec.argumentWords args m = .ok ws m) (hf : Exec.call view f ws m = .error e m₁) :
    Exec.step view m = .error e m₁ := by
  rw [h.step hi]
  exact Exec.execute_call_of_error ha hf

/-- A branch on two variables that is taken. -/
theorem step_taken (h : Running awardee v position m) {cmp : Comparison} {x y : Var}
    {offset : Int8} {target : Nat}
    (hi : listing.lookup position = some (.branch cmp x.slot y.slot offset))
    (hc : cmp.holds (v x) (v y) = true)
    (ht : positionAfter? position offset.toInt = some target) :
    Exec.step view m = .ok .next (Campaign.goOn m awardee v target) := by
  rw [h.goOn_eq, h.step hi, Exec.execute_branch (h.load x) (h.load y), hc]
  exact Exec.branchIf_true ht

/-- A branch on two variables that is not taken. -/
theorem step_passed (h : Running awardee v position m) {cmp : Comparison} {x y : Var}
    {offset : Int8} (hi : listing.lookup position = some (.branch cmp x.slot y.slot offset))
    (hc : cmp.holds (v x) (v y) = false) :
    Exec.step view m = .ok .next (Campaign.goOn m awardee v (position + 10)) := by
  rw [h.goOn_eq, h.step hi, Exec.execute_branch (h.load x) (h.load y), hc]
  exact Exec.branchIf_false

/-- A branch on a variable that is zero. -/
theorem step_zero (h : Running awardee v position m) {x : Var} {offset : Int8} {target : Nat}
    (hi : listing.lookup position = some (.branchZero x.slot offset)) (hx : v x = 0)
    (ht : positionAfter? position offset.toInt = some target) :
    Exec.step view m = .ok .next (Campaign.goOn m awardee v target) := by
  rw [h.goOn_eq, h.step hi, Exec.execute_branchZero (h.load x), hx]
  exact Exec.branchIf_true ht

/-- A branch on a variable that is not zero. -/
theorem step_nonzero (h : Running awardee v position m) {x : Var} {offset : Int8}
    (hi : listing.lookup position = some (.branchZero x.slot offset)) (hx : v x ≠ 0) :
    Exec.step view m = .ok .next (Campaign.goOn m awardee v (position + 6)) := by
  rw [h.goOn_eq, h.step hi, Exec.execute_branchZero (h.load x), beq_false_of_ne hx]
  exact Exec.branchIf_false

theorem step_finish (h : Running awardee v position m)
    (hi : listing.lookup position = some .finish) : Exec.step view m = .ok .finish m :=
  h.step hi

end Running

end Pledge.Campaign
