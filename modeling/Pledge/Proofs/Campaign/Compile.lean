-- Compiling a campaign: which terms are refused and why, what the container
-- of the others holds, and that its bytes tell the terms.
import Pledge.Proofs.Campaign.Program
import Pledge.Proofs.Container
import Pledge.Proofs.Texts

namespace Pledge.Campaign

variable {window goal : Word} {awardee : String}

/-! ## The checks -/

/-- Ten minutes to thirty days. -/
def WindowInRange (window : Word) : Prop := 10 ≤ window.toInt ∧ window.toInt ≤ 43200

/-- A hundredth of a coin to a million of them, in units. -/
def GoalInRange (goal : Word) : Prop :=
  1000000 ≤ goal.toInt ∧ goal.toInt ≤ 100000000000000

instance (window : Word) : Decidable (WindowInRange window) :=
  inferInstanceAs (Decidable (10 ≤ window.toInt ∧ window.toInt ≤ 43200))

instance (goal : Word) : Decidable (GoalInRange goal) :=
  inferInstanceAs (Decidable (1000000 ≤ goal.toInt ∧ goal.toInt ≤ 100000000000000))

theorem windowInRange_iff : WindowInRange window ↔ minWindow ≤ window ∧ window ≤ maxWindow := by
  rw [Int64.le_iff_toInt_le, Int64.le_iff_toInt_le]
  exact Iff.rfl

theorem goalInRange_iff : GoalInRange goal ↔ minGoal ≤ goal ∧ goal ≤ maxGoal := by
  rw [Int64.le_iff_toInt_le, Int64.le_iff_toInt_le]
  exact Iff.rfl

theorem Terms.inRange (t : Terms) : WindowInRange t.window ∧ GoalInRange t.goal.units :=
  ⟨windowInRange_iff.mpr t.window_bounds, goalInRange_iff.mpr t.goal_bounds⟩

/-- Numbers in range and the text of an address. -/
def Valid (window goal : Word) (awardee : String) : Prop :=
  WindowInRange window ∧ GoalInRange goal ∧ ∃ address, Address.parse awardee = .ok address

/-- The numbers and the text are those of the terms. -/
structure Describes (window goal : Word) (awardee : String) (t : Terms) : Prop where
  window : t.window = window
  goal : t.goal.units = goal
  awardee : Address.parse awardee = .ok t.awardee

/-- Why numbers and a text are refused: each check is made only where those before it are passed. -/
inductive Refused (window goal : Word) (awardee : String) : Error → Prop
  | window (hw : ¬ WindowInRange window) :
      Refused window goal awardee (.outOfRange .window window 10 43200)
  | goal (hw : WindowInRange window) (hg : ¬ GoalInRange goal) :
      Refused window goal awardee (.outOfRange .goal goal 1000000 100000000000000)
  | awardee {reason : Address.Error} (hw : WindowInRange window) (hg : GoalInRange goal)
      (ha : Address.parse awardee = .error reason) :
      Refused window goal awardee (.invalidAwardee awardee reason)

theorem ofText_of_refused {e : Error} (h : Refused window goal awardee e) :
    Terms.ofText window goal awardee = .error e := by
  unfold Terms.ofText checkRange
  cases h with
  | window hw =>
    rw [dif_neg (mt windowInRange_iff.mpr hw)]
    rfl
  | goal hw hg =>
    rw [dif_pos (windowInRange_iff.mp hw), dif_neg (mt goalInRange_iff.mpr hg)]
    rfl
  | awardee hw hg ha =>
    rw [dif_pos (windowInRange_iff.mp hw), dif_pos (goalInRange_iff.mp hg), ha]
    rfl

theorem check_of_describes {t : Terms} (h : Describes window goal awardee t) :
    Terms.check window ⟨goal⟩ t.awardee = .ok t := by
  obtain ⟨window, ⟨goal⟩, address, hw, hg⟩ := t
  obtain ⟨rfl, rfl, _⟩ := h
  unfold Terms.check checkRange
  dsimp only at hw hg ⊢
  rw [dif_pos hw, dif_pos hg]
  rfl

/-- Behind the address, the bounds are checked once more, and hold again. -/
theorem ofText_of_describes {t : Terms} (h : Describes window goal awardee t) :
    Terms.ofText window goal awardee = .ok t := by
  have hcheck := check_of_describes h
  obtain ⟨rfl, rfl, ha⟩ := h
  unfold Terms.ofText
  refine Except.bind_eq_ok.mpr ⟨_, dif_pos t.window_bounds, ?_⟩
  refine Except.bind_eq_ok.mpr ⟨_, dif_pos t.goal_bounds, ?_⟩
  exact Except.bind_eq_ok.mpr ⟨t.awardee, Except.mapError_eq_ok.mpr ha, hcheck⟩

theorem exists_describes_iff :
    (∃ t, Describes window goal awardee t) ↔ Valid window goal awardee := by
  constructor
  · rintro ⟨t, rfl, rfl, ha⟩
    exact ⟨t.inRange.1, t.inRange.2, t.awardee, ha⟩
  · rintro ⟨hw, hg, address, ha⟩
    exact ⟨⟨window, ⟨goal⟩, address, windowInRange_iff.mp hw, goalInRange_iff.mp hg⟩, rfl, rfl, ha⟩

theorem describes_or_refused (window goal : Word) (awardee : String) :
    (∃ t, Describes window goal awardee t) ∨ ∃ e, Refused window goal awardee e := by
  by_cases hw : WindowInRange window
  · by_cases hg : GoalInRange goal
    · cases ha : Address.parse awardee with
      | ok address => exact .inl (exists_describes_iff.mpr ⟨hw, hg, address, ha⟩)
      | error reason => exact .inr ⟨_, .awardee hw hg ha⟩
    · exact .inr ⟨_, .goal hw hg⟩
  · exact .inr ⟨_, .window hw⟩

theorem compile_of_describes {t : Terms} (h : Describes window goal awardee t) :
    compile window goal awardee = .ok (Wire.toBytes (container t)) :=
  Except.bind_eq_ok.mpr ⟨t, ofText_of_describes h, Except.bind_eq_ok.mpr ⟨_, build_eq t, rfl⟩⟩

theorem compile_of_refused {e : Error} (h : Refused window goal awardee e) :
    compile window goal awardee = .error e :=
  Except.bind_eq_error.mpr (.inl (ofText_of_refused h))

theorem compile_eq_ok {bytes : Bytes} (h : compile window goal awardee = .ok bytes) :
    ∃ t, Describes window goal awardee t ∧ Wire.toBytes (container t) = bytes := by
  rcases describes_or_refused window goal awardee with ⟨t, ht⟩ | ⟨e, he⟩
  · rw [compile_of_describes ht] at h
    exact ⟨t, ht, Except.ok.inj h⟩
  · rw [compile_of_refused he] at h
    cases h

theorem compile_eq_error {e : Error} (h : compile window goal awardee = .error e) :
    Refused window goal awardee e := by
  rcases describes_or_refused window goal awardee with ⟨t, ht⟩ | ⟨e', he⟩
  · rw [compile_of_describes ht] at h
    cases h
  · rw [compile_of_refused he] at h
    cases h
    exact he

theorem sealed_container (t : Terms) : (container t).Sealed :=
  Container.sealed_of_wrap (wrap_segments t)

theorem initialData_eq (t : Terms) :
    initialData t =
      Wire.bytesOfWords [t.window, t.goal.units, 0, 0, 0, 0, 0, 0, TxKind.payment.word, 0] ++
        (t.awardee.toBytes ++ List.replicate 7 0) := by
  have hwords : Layout.standard.words t =
      [t.window, t.goal.units, 0, 0, 0, 0, 0, 0, TxKind.payment.word, 0] ++
        t.awardee.toWords.toList := rfl
  rw [← Address.padded_eq, ← Address.bytesOfWords_toWords, initialData_eq_words, hwords]
  exact Wire.bytesOfWords_append _ _

/-- The data tell the terms. -/
theorem initialData_injective {t t' : Terms} (h : initialData t = initialData t') : t = t' := by
  have hmemory : memory t.awardee (initialVars t) = memory t'.awardee (initialVars t') := by
    rw [← wordsOf_initialData, ← wordsOf_initialData, h]
  obtain ⟨window, ⟨goal⟩, address, hw, hg⟩ := t
  obtain ⟨window', ⟨goal'⟩, address', hw', hg'⟩ := t'
  simp only [memory, initialVars, List.cons.injEq, Array.mk.injEq, and_true, true_and] at hmemory
  obtain ⟨rfl, rfl, hfirst, hsecond, hthird, hfourth⟩ := hmemory
  have hwords : address.toWords = address'.toWords := by
    rw [← address.toWords.mk_words, ← address'.toWords.mk_words, hfirst, hsecond, hthird, hfourth]
  have haddress : Except.ok address = (.ok address' : Except Address.Error Address) := by
    rw [← Address.ofWords_toWords, ← Address.ofWords_toWords, hwords]
  cases haddress
  rfl

/-- The slots that hold the window, the goal and the awardee. -/
def HoldsTerms (l : Layout) (slot : Nat) : Prop :=
  slot = l.windowMinutes.toNat ∨ slot = l.goalAmount.toNat ∨
    (l.awardee.toNat ≤ slot ∧ slot < l.awardee.toNat + 4)

/-- The other slots do not depend on the terms. -/
theorem getElem?_wordsOf_initialData (t t' : Terms) {slot : Nat}
    (h : ¬ HoldsTerms Layout.standard slot) :
    (Wire.wordsOf (initialData t))[slot]? = (Wire.wordsOf (initialData t'))[slot]? := by
  have hslot : ¬ (slot = 0 ∨ slot = 1 ∨ (10 ≤ slot ∧ slot < 14)) := h
  rw [wordsOf_initialData, wordsOf_initialData]
  by_cases hlast : 14 ≤ slot
  · rw [Array.getElem?_eq_none hlast, Array.getElem?_eq_none hlast]
  · have hvar : ∃ x : Var, x.slot.toNat = slot ∧ ∀ t, initialVars t x = 0 := by
      obtain rfl | rfl | rfl | rfl | rfl | rfl | rfl | rfl : slot = 2 ∨ slot = 3 ∨ slot = 4 ∨
          slot = 5 ∨ slot = 6 ∨ slot = 7 ∨ slot = 8 ∨ slot = 9 := by omega
      · exact ⟨.deadline, rfl, fun _ => rfl⟩
      · exact ⟨.wakeHeight, rfl, fun _ => rfl⟩
      · exact ⟨.finalBalance, rfl, fun _ => rfl⟩
      · exact ⟨.cursor, rfl, fun _ => rfl⟩
      · exact ⟨.exhausted, rfl, fun _ => rfl⟩
      · exact ⟨.txKind, rfl, fun _ => rfl⟩
      · exact ⟨.paymentKind, rfl, fun _ => rfl⟩
      · exact ⟨.paymentAmount, rfl, fun _ => rfl⟩
    obtain ⟨x, rfl, hx⟩ := hvar
    rw [getElem?_memory, getElem?_memory, hx, hx]

/-! ## The laws of compiling -/

/-- Compiling fails on the terms only, at the first check that they do not pass: the window, then
the goal, then the awardee. Otherwise the container is read back from the bytes. Its header counts
the bytes of the code and the slots of the data. Its data hold the window and the goal in the first
two slots, the kind of a payment in the ninth, and the address of the awardee, filled up with zeros,
in the last four. It is what is built from the terms. -/
theorem compiling_fails_on_the_terms_only (window goal : Word) (awardee : String) :
    ((∃ bytes, compile window goal awardee = .ok bytes) ↔ Valid window goal awardee) ∧
    (¬ WindowInRange window →
      compile window goal awardee = .error (.outOfRange .window window 10 43200)) ∧
    (WindowInRange window → ¬ GoalInRange goal →
      compile window goal awardee = .error (.outOfRange .goal goal 1000000 100000000000000)) ∧
    (WindowInRange window → GoalInRange goal → ∀ reason, Address.parse awardee = .error reason →
      compile window goal awardee = .error (.invalidAwardee awardee reason)) ∧
    (∀ reason, compile window goal awardee ≠ .error (.internal reason)) ∧
    ∀ bytes, compile window goal awardee = .ok bytes →
      ∃ address c t compiled, Address.parse awardee = .ok address ∧
        Container.ofBytes bytes = .ok c ∧
        c.header.codePages.toInt = c.code.length ∧
        c.header.dataPages.toInt = Layout.standard.count ∧
        c.data = Wire.bytesOfWords [window, goal, 0, 0, 0, 0, 0, 0, TxKind.payment.word, 0] ++
          (address.toBytes ++ List.replicate 7 0) ∧
        Terms.check window ⟨goal⟩ address = .ok t ∧ build t = .ok compiled ∧
        compiled.container = c ∧ compiled.bytes = bytes := by
  refine ⟨⟨?_, ?_⟩, ?_, ?_, ?_, ?_, ?_⟩
  · rintro ⟨bytes, h⟩
    obtain ⟨t, ht, _⟩ := compile_eq_ok h
    exact exists_describes_iff.mp ⟨t, ht⟩
  · intro h
    obtain ⟨t, ht⟩ := exists_describes_iff.mpr h
    exact ⟨_, compile_of_describes ht⟩
  · intro hw
    exact compile_of_refused (.window hw)
  · intro hw hg
    exact compile_of_refused (.goal hw hg)
  · intro hw hg reason ha
    exact compile_of_refused (.awardee hw hg ha)
  · intro reason h
    cases compile_eq_error h
  · intro bytes h
    obtain ⟨t, ht, rfl⟩ := compile_eq_ok h
    have hsealed := sealed_container t
    have hdata := (data_container t).trans (initialData_eq t)
    rw [ht.window, ht.goal] at hdata
    exact ⟨t.awardee, container t, t, _, ht.awardee, Container.ofBytes_toBytes hsealed,
      hsealed.code.symm, rfl, hdata, check_of_describes ht, build_eq t, rfl, rfl⟩

/-- The bytes of a campaign tell its window, its goal and its awardee, down to the text. All
campaigns have the same header and the same code, and so the same digest of the code; their data
differ in the slots of the terms only. -/
theorem campaigns_differ_in_their_terms_only {window window' goal goal' : Word}
    {awardee awardee' : String} (h : Valid window goal awardee)
    (h' : Valid window' goal' awardee') :
    ∃ bytes bytes' c c', compile window goal awardee = .ok bytes ∧
      compile window' goal' awardee' = .ok bytes' ∧
      (bytes = bytes' → window = window' ∧ goal = goal' ∧ awardee = awardee') ∧
      Container.ofBytes bytes = .ok c ∧ Container.ofBytes bytes' = .ok c' ∧
      c.header = c'.header ∧ c.code = c'.code ∧ c.codeHash = c'.codeHash ∧
      c.data.length = c'.data.length ∧
      ∀ slot, ¬ HoldsTerms Layout.standard slot →
        (Wire.wordsOf c.data)[slot]? = (Wire.wordsOf c'.data)[slot]? := by
  obtain ⟨t, ht⟩ := exists_describes_iff.mpr h
  obtain ⟨t', ht'⟩ := exists_describes_iff.mpr h'
  have hread := Container.ofBytes_toBytes (sealed_container t)
  have hread' := Container.ofBytes_toBytes (sealed_container t')
  have hcode := code_container t t'
  refine ⟨_, _, container t, container t', compile_of_describes ht, compile_of_describes ht', ?_,
    hread, hread', header_container t t', hcode, congrArg Digest.ofBytes hcode, ?_, ?_⟩
  · intro heq
    have hcontainer : container t = container t' := by
      rw [heq, hread'] at hread
      exact (Except.ok.inj hread).symm
    have hdata := congrArg Container.data hcontainer
    rw [data_container, data_container] at hdata
    have hterms : t = t' := initialData_injective hdata
    subst hterms
    refine ⟨ht.window.symm.trans ht'.window, ht.goal.symm.trans ht'.goal, ?_⟩
    rw [Address.parse_eq_ok.mp ht.awardee, Address.parse_eq_ok.mp ht'.awardee]
  · rw [data_container, data_container, length_initialData, length_initialData]
  · intro slot hslot
    rw [data_container, data_container]
    exact getElem?_wordsOf_initialData t t' hslot

/-- The smallest campaign and the largest, for an account and for an automated transaction. -/
theorem campaigns_differ_in_their_terms_only_at_the_bounds :
    ∃ bytes bytes', compile 10 1000000 "QbFJeakUnQCxSLK4SDymGpeLeNvrMugD7X" = .ok bytes ∧
      compile 43200 100000000000000 (Address.text ⟨.automated, .replicate 20 0xaa⟩) = .ok bytes' ∧
      bytes ≠ bytes' := by
  have hparse : (Address.parse "QbFJeakUnQCxSLK4SDymGpeLeNvrMugD7X").toOption.isSome = true := by
    decide +kernel
  obtain ⟨address, haddress⟩ := Option.isSome_iff_exists.mp hparse
  have h : Valid 10 1000000 "QbFJeakUnQCxSLK4SDymGpeLeNvrMugD7X" :=
    ⟨by decide, by decide, address, eq_ok_of_toOption haddress⟩
  have h' : Valid 43200 100000000000000 (Address.text ⟨.automated, .replicate 20 0xaa⟩) :=
    ⟨by decide, by decide, _, Address.parse_eq_ok.mpr rfl⟩
  obtain ⟨bytes, bytes', _, _, hbytes, hbytes', hsame, _⟩ :=
    campaigns_differ_in_their_terms_only h h'
  exact ⟨bytes, bytes', hbytes, hbytes', fun heq => absurd (hsame heq).1 (by decide)⟩

end Pledge.Campaign
