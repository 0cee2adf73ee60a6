-- How amounts are read and printed. A text is read as the decimal that it
-- spells, however long it is, and what is wrong with it is named in a fixed
-- order. Every amount but the least is read back from its own text.
import Mathlib.Algebra.Order.Field.Rat
import Mathlib.Data.List.DropRight
import Mathlib.Tactic.FieldSimp
import Mathlib.Tactic.Linarith
import Mathlib.Tactic.Ring
import Pledge.Amount
import Pledge.Proofs.Words

namespace Pledge.Amount

variable {negative : Bool} {cs body whole fraction : List Char} {text : String}

/-! ## The parts of a text -/

/-- A text with at most one sign in front of its body. -/
inductive Signed : List Char → Bool → List Char → Prop where
  | minus (body : List Char) : Signed ('-' :: body) true body
  | plus (body : List Char) : Signed ('+' :: body) false body
  | unsigned {body : List Char} (hminus : body.head? ≠ some '-') (hplus : body.head? ≠ some '+') :
    Signed body false body

/-- A body with what stands before and after its first point. -/
inductive Pointed : List Char → List Char → List Char → Prop where
  | point {whole : List Char} (fraction : List Char) (hwhole : '.' ∉ whole) :
    Pointed (whole ++ '.' :: fraction) whole fraction
  | noPoint {whole : List Char} (hwhole : '.' ∉ whole) : Pointed whole whole []

theorem signed_splitSign (cs : List Char) : Signed cs (splitSign cs).1 (splitSign cs).2 := by
  unfold splitSign
  split
  · exact .minus _
  · exact .plus _
  · rename_i hminus hplus
    apply Signed.unsigned
    · intro h
      obtain ⟨rest, rfl⟩ := List.head?_eq_some_iff.mp h
      exact hminus rest rfl
    · intro h
      obtain ⟨rest, rfl⟩ := List.head?_eq_some_iff.mp h
      exact hplus rest rfl

theorem Signed.splitSign_eq (h : Signed cs negative body) : splitSign cs = (negative, body) := by
  cases h with
  | minus => rfl
  | plus => rfl
  | unsigned hminus hplus =>
    unfold splitSign
    split
    · simp at hminus
    · simp at hplus
    · rfl

theorem pointed_splitPoint (cs : List Char) : Pointed cs (splitPoint cs).1 (splitPoint cs).2 := by
  have hwhole : '.' ∉ cs.takeWhile (· != '.') := by
    intro h
    simpa using List.mem_takeWhile_imp h
  have hcs : cs.takeWhile (· != '.') ++ cs.dropWhile (· != '.') = cs :=
    List.takeWhile_append_dropWhile
  unfold splitPoint
  cases hrest : cs.dropWhile (· != '.') with
  | nil =>
    rw [hrest, List.append_nil] at hcs
    rw [hcs] at hwhole ⊢
    exact .noPoint hwhole
  | cons c rest =>
    have hc : c = '.' := by
      have hhead := List.head?_dropWhile_not (· != '.') cs
      rw [hrest] at hhead
      simpa using hhead
    subst hc
    have hpoint := Pointed.point rest hwhole
    rwa [← hrest, hcs] at hpoint

theorem splitPoint_append {rest : List Char} (hwhole : '.' ∉ whole) :
    splitPoint (whole ++ rest) =
      (whole ++ rest.takeWhile (· != '.'), (rest.dropWhile (· != '.')).drop 1) := by
  have hall : ∀ c ∈ whole, (c != '.') = true := by
    intro c hc
    simpa using fun hpoint : c = '.' => hwhole (hpoint ▸ hc)
  rw [splitPoint, List.takeWhile_append_of_pos hall, List.dropWhile_append_of_pos hall]

theorem Pointed.splitPoint_eq (h : Pointed body whole fraction) :
    splitPoint body = (whole, fraction) := by
  cases h with
  | point fraction hwhole =>
    rw [splitPoint_append hwhole]
    simp
  | noPoint hwhole =>
    have hsplit : splitPoint (body ++ []) = _ := splitPoint_append hwhole
    rw [List.append_nil] at hsplit
    rw [hsplit]
    simp

theorem read_eq_ofParts (hsign : Signed text.toList negative body)
    (hpoint : Pointed body whole fraction) : read text = ofParts negative whole fraction := by
  unfold read
  rw [hsign.splitSign_eq]
  dsimp only
  rw [hpoint.splitPoint_eq]

/-! ## The value of a decimal -/

/-- The number that digits before and after a point spell. -/
def value (whole fraction : List Char) : ℚ :=
  Nat.ofDigitChars 10 whole 0 + Nat.ofDigitChars 10 fraction 0 / 10 ^ fraction.length

theorem ofDigitChars_zeros (k n : Nat) :
    Nat.ofDigitChars 10 (List.replicate k '0') n = 10 ^ k * n := by
  induction k generalizing n with
  | zero => simp
  | succ k ih =>
    rw [List.replicate_succ, Nat.ofDigitChars_cons, ih, Nat.pow_succ]
    simp [Nat.mul_assoc]

/-- Zeros at the end of a fraction do not count. -/
theorem value_append_zeros (k : Nat) :
    value whole (fraction ++ List.replicate k '0') = value whole fraction := by
  unfold value
  rw [Nat.ofDigitChars_append, ofDigitChars_zeros, List.length_append, List.length_replicate]
  push_cast
  rw [pow_add, mul_comm (10 ^ fraction.length : ℚ), mul_div_mul_left _ _ (by positivity)]

theorem exists_zeros (fraction : List Char) :
    ∃ k, fraction = fraction.rdropWhile (· == '0') ++ List.replicate k '0' := by
  refine ⟨(fraction.rtakeWhile (· == '0')).length, ?_⟩
  have hzeros : fraction.rtakeWhile (· == '0') =
      List.replicate (fraction.rtakeWhile (· == '0')).length '0' := by
    apply List.eq_replicate_of_mem
    intro c hc
    simpa using List.mem_rtakeWhile_imp hc
  rw [← hzeros]
  exact List.rdropWhile_append_rtakeWhile.symm

theorem rdropWhile_append_zeros (k : Nat) :
    (fraction ++ List.replicate k '0').rdropWhile (· == '0') =
      fraction.rdropWhile (· == '0') := by
  induction k with
  | zero => simp
  | succ k ih =>
    rw [List.replicate_succ', ← List.append_assoc, List.rdropWhile_concat_pos _ _ _ (by rfl), ih]

/-- The digits of a fraction that count are those before the zeros at its end. -/
theorem value_significant :
    value whole (fraction.rdropWhile (· == '0')) = value whole fraction := by
  obtain ⟨k, hk⟩ := exists_zeros fraction
  conv_rhs => rw [hk, value_append_zeros]

/-- The units of a decimal are its value in units. -/
theorem exactUnits_eq (hlength : fraction.length ≤ 8) :
    (exactUnits whole fraction : ℚ) = value whole fraction * 10 ^ 8 := by
  have hscale : (10 : ℚ) ^ 8 = 10 ^ fraction.length * 10 ^ (8 - fraction.length) := by
    rw [← pow_add, Nat.add_sub_cancel' hlength]
  have hpow : Nat.pow 10 (decimals - fraction.length) = 10 ^ (8 - fraction.length) := rfl
  unfold exactUnits value
  rw [Nat.ofDigitChars_append, Nat.ofDigitChars_eq_ofDigitChars_zero (l := fraction), hscale, hpow]
  push_cast
  field_simp

/-! ## The law of reading -/

/-- What a decimal is read as. The causes of an error are looked for in this order. -/
inductive Verdict (negative : Bool) (whole fraction : List Char) : Except Error Amount → Prop where
  | empty (hnone : whole ++ fraction = []) : Verdict negative whole fraction (.error .empty)
  /-- The first character that is no digit is named. -/
  | invalidCharacter {front back : List Char} {c : Char}
    (hsplit : whole ++ fraction = front ++ c :: back) (hfront : ∀ d ∈ front, d.isDigit = true)
    (hc : c.isDigit = false) : Verdict negative whole fraction (.error (.invalidCharacter c))
  | tooPrecise (hsome : whole ++ fraction ≠ [])
    (hdigits : ∀ c ∈ whole ++ fraction, c.isDigit = true)
    (hlength : 8 < (fraction.rdropWhile (· == '0')).length) :
    Verdict negative whole fraction (.error .tooPrecise)
  | overflow (hsome : whole ++ fraction ≠ []) (hdigits : ∀ c ∈ whole ++ fraction, c.isDigit = true)
    (hlength : (fraction.rdropWhile (· == '0')).length ≤ 8)
    (hvalue : 2 ^ 63 - 1 < value whole fraction * 10 ^ 8) :
    Verdict negative whole fraction (.error .overflow)
  | ok {a : Amount} (hsome : whole ++ fraction ≠ [])
    (hdigits : ∀ c ∈ whole ++ fraction, c.isDigit = true)
    (hlength : (fraction.rdropWhile (· == '0')).length ≤ 8)
    (hvalue : value whole fraction * 10 ^ 8 ≤ 2 ^ 63 - 1)
    (hunits : (a.units.toInt : ℚ) =
      (if negative then -1 else 1) * (value whole fraction * 10 ^ 8)) :
    Verdict negative whole fraction (.ok a)

theorem significant_eq (fraction : List Char) :
    significant fraction = fraction.rdropWhile (· == '0') := rfl

theorem natCast_le_iff {n : Nat} : (n : ℚ) ≤ 2 ^ 63 - 1 ↔ n < 2 ^ 63 := by
  have hmost : (2 ^ 63 - 1 : ℚ) = (2 ^ 63 - 1 : Nat) := by norm_num
  rw [hmost, Nat.cast_le]
  omega

section

variable (hlength : (fraction.rdropWhile (· == '0')).length ≤ 8)
include hlength

/-- The value of a decimal is a whole number of units if no digit behind the eighth place counts. -/
theorem units_eq :
    (exactUnits whole (significant fraction) : ℚ) = value whole fraction * 10 ^ 8 := by
  rw [significant_eq, exactUnits_eq hlength, value_significant]

theorem units_lt_iff :
    exactUnits whole (significant fraction) < 2 ^ 63 ↔
      value whole fraction * 10 ^ 8 ≤ 2 ^ 63 - 1 := by
  rw [← units_eq hlength, natCast_le_iff]

end

theorem toInt_signedUnits {n : Nat} (negative : Bool) (hn : n < 2 ^ 63) :
    ((Int64.ofInt (if negative then -n else n)).toInt : ℚ) = (if negative then -1 else 1) * n := by
  have hfits : Word.Fits (if negative then -n else n) := by
    unfold Word.Fits
    split <;> omega
  rw [Word.toInt_ofInt hfits]
  cases negative <;> simp

theorem exists_verdict (negative : Bool) (whole fraction : List Char) :
    ∃ r, Verdict negative whole fraction r := by
  by_cases hsome : whole ++ fraction = []
  · exact ⟨_, .empty hsome⟩
  cases hfind : (whole ++ fraction).find? (fun c => !c.isDigit) with
  | some c =>
    obtain ⟨hc, front, back, hsplit, hfront⟩ := List.find?_eq_some_iff_append.mp hfind
    exact ⟨_, .invalidCharacter hsplit (by simpa using hfront) (by simpa using hc)⟩
  | none =>
    have hdigits := find?_eq_none_iff.mp hfind
    by_cases hlength : (fraction.rdropWhile (· == '0')).length ≤ 8
    · by_cases hvalue : value whole fraction * 10 ^ 8 ≤ 2 ^ 63 - 1
      · have hunits := toInt_signedUnits negative ((units_lt_iff hlength).mpr hvalue)
        rw [units_eq hlength] at hunits
        exact ⟨_, .ok hsome hdigits hlength hvalue hunits⟩
      · exact ⟨_, .overflow hsome hdigits hlength (not_le.mp hvalue)⟩
    · exact ⟨_, .tooPrecise hsome hdigits (not_le.mp hlength)⟩

/-- The reader comes to the verdict. The checks on the way to the units are as one by now, and that
one is on the value. -/
theorem ofParts_of_verdict {r : Except Error Amount} (h : Verdict negative whole fraction r) :
    ofParts negative whole fraction = r.mapError .refused := by
  cases h with
  | empty hnone =>
    obtain ⟨rfl, rfl⟩ := List.append_eq_nil_iff.mp hnone
    rfl
  | @invalidCharacter front back c hsplit hfront hc =>
    apply ofParts_of_find?
    rw [List.find?_eq_some_iff_append]
    exact ⟨by simp [hc], front, back, hsplit, by simpa using hfront⟩
  | tooPrecise hsome hdigits hlength =>
    rw [ofParts_of_digits hsome hdigits]
    exact if_pos hlength
  | overflow hsome hdigits hlength hvalue =>
    have hunits := mt (units_lt_iff hlength).mp (not_le.mpr hvalue)
    rw [ofParts_of_digits hsome hdigits]
    exact (if_neg (Nat.not_lt.mpr hlength)).trans (if_neg hunits)
  | @ok a hsome hdigits hlength hvalue hunits =>
    have hlt := (units_lt_iff hlength).mpr hvalue
    rw [ofParts_of_digits hsome hdigits]
    refine (if_neg (Nat.not_lt.mpr hlength)).trans ((if_pos hlt).trans ?_)
    rw [← units_eq hlength, ← toInt_signedUnits negative hlt, Int.cast_inj,
      Int64.toInt_inj] at hunits
    rw [← hunits]
    rfl

/-- A text is read as its verdict says. -/
theorem parse_eq_iff (hsign : Signed text.toList negative body)
    (hpoint : Pointed body whole fraction) {r : Except Error Amount} :
    parse text = r ↔ Verdict negative whole fraction r := by
  have hparse : ∀ {r}, Verdict negative whole fraction r → parse text = r := by
    intro r hr
    have hread := (read_eq_ofParts hsign hpoint).trans (ofParts_of_verdict hr)
    cases r with
    | ok a => exact parse_of_ok hread
    | error reason => exact parse_of_refused hread
  constructor
  · rintro rfl
    obtain ⟨r, hr⟩ := exists_verdict negative whole fraction
    rwa [hparse hr]
  · exact hparse

/-- Every text is read exactly. It can be taken apart at its sign and at its first point, and is
then read as its verdict says and in no other way: as what is wrong with it first, or as the value
of the decimal in units, with its sign. No text makes the reader abort. -/
theorem texts_are_read_exactly (text : String) :
    (∃ negative body whole fraction,
      Signed text.toList negative body ∧ Pointed body whole fraction) ∧
    (∀ negative body whole fraction, Signed text.toList negative body →
      Pointed body whole fraction →
      ∀ r, parse text = r ↔ Verdict negative whole fraction r) ∧
    read text ≠ .error .aborted := by
  refine ⟨?_, ?_, read_ne_aborted text⟩
  · exact ⟨_, _, _, _, signed_splitSign text.toList, pointed_splitPoint _⟩
  · intro negative body whole fraction hsign hpoint r
    exact parse_eq_iff hsign hpoint

/-- A quarter with thirty zeros in front of it and behind it. -/
theorem texts_are_read_exactly_with_many_zeros :
    let whole := List.replicate 30 '0'
    let fraction := ['2', '5'] ++ List.replicate 30 '0'
    Signed ('-' :: (whole ++ '.' :: fraction)) true (whole ++ '.' :: fraction) ∧
    Pointed (whole ++ '.' :: fraction) whole fraction ∧
    parse (String.ofList ('-' :: (whole ++ '.' :: fraction))) = .ok ⟨-25000000⟩ := by
  intro whole fraction
  have hsign := Signed.minus (whole ++ '.' :: fraction)
  have hpoint : Pointed (whole ++ '.' :: fraction) whole fraction :=
    .point fraction (by simp [whole])
  refine ⟨hsign, hpoint, ?_⟩
  have hvalue : value whole fraction = 1 / 4 := by
    have hwhole : Nat.ofDigitChars 10 whole 0 = 0 := ofDigitChars_zeros 30 0
    have hfraction : Nat.ofDigitChars 10 ['2', '5'] 0 = 25 := rfl
    rw [value_append_zeros, value, hwhole, hfraction]
    norm_num
  rw [← String.toList_ofList (l := '-' :: (whole ++ '.' :: fraction))] at hsign
  apply ((texts_are_read_exactly _).2.1 _ _ _ _ hsign hpoint _).mpr
  refine .ok (by simp [fraction]) (by simp [whole, fraction]) ?_ ?_ ?_
  · rw [rdropWhile_append_zeros]
    decide
  · rw [hvalue]
    norm_num
  · rw [hvalue]
    norm_num
    decide

/-! ## The law of printing -/

theorem isDigit_of_mem_paddedDecimal {width n : Nat} {c : Char}
    (hc : c ∈ Text.paddedDecimal width n) :
    c.isDigit = true := by
  rcases List.mem_append.mp hc with hc | hc
  · rw [(List.mem_replicate.mp hc).2]
    rfl
  · exact Nat.isDigit_of_mem_toDigits (by decide) (by decide) hc

theorem length_paddedDecimal {n : Nat} (hn : n < 10 ^ 8) : (Text.paddedDecimal 8 n).length = 8 := by
  have hlength := (Nat.length_toDigits_le_iff (b := 10) (by decide) (by decide)).mpr hn
  rw [Text.paddedDecimal, List.length_leftpad]
  omega

/-- The value of what is printed for a number of units. -/
theorem value_printed (n : Nat) :
    value (Nat.toDigits 10 (n / unitsPerWhole)) (Text.paddedDecimal 8 (n % unitsPerWhole)) *
      10 ^ 8 =
      n := by
  have hlt : n % unitsPerWhole < 10 ^ 8 := Nat.mod_lt n (by decide)
  have hpadded : Nat.ofDigitChars 10 (Text.paddedDecimal 8 (n % unitsPerWhole)) 0 =
      n % unitsPerWhole := by
    rw [Text.paddedDecimal, List.leftpad, Nat.ofDigitChars_append, ofDigitChars_zeros, Nat.mul_zero,
      Nat.ofDigitChars_toDigits (by decide) (by decide)]
  have hdivmod := Nat.div_add_mod n unitsPerWhole
  have hunits : unitsPerWhole = 10 ^ 8 := rfl
  rw [value, hpadded, length_paddedDecimal hlt, Nat.ofDigitChars_toDigits (by decide) (by decide),
    add_mul, div_mul_cancel₀ _ (by norm_num)]
  rw [hunits] at hdivmod ⊢
  conv_rhs => rw [← hdivmod]
  push_cast
  ring

theorem isDigit_of_mem_printed {n : Nat} {c : Char}
    (hc : c ∈ Nat.toDigits 10 (n / unitsPerWhole) ++ Text.paddedDecimal 8 (n % unitsPerWhole)) :
    c.isDigit = true := by
  rcases List.mem_append.mp hc with hc | hc
  · exact Nat.isDigit_of_mem_toDigits (by decide) (by decide) hc
  · exact isDigit_of_mem_paddedDecimal hc

theorem signed_chars (a : Amount) :
    Signed a.chars (decide (a.units.toInt < 0))
      (Nat.toDigits 10 (a.units.toInt.natAbs / unitsPerWhole) ++
        '.' :: Text.paddedDecimal 8 (a.units.toInt.natAbs % unitsPerWhole)) := by
  unfold chars
  by_cases hneg : a.units.toInt < 0
  · simp only [hneg, if_true, decide_true, List.append_assoc]
    exact .minus _
  · have hhead : ∀ c, (Nat.toDigits 10 (a.units.toInt.natAbs / unitsPerWhole) ++
        '.' :: Text.paddedDecimal 8 (a.units.toInt.natAbs % unitsPerWhole)).head? = some c →
        c.isDigit = true := by
      intro c hc
      rw [List.head?_append_of_ne_nil _ Nat.toDigits_ne_nil] at hc
      exact Nat.isDigit_of_mem_toDigits (by decide) (by decide) (List.mem_of_head? hc)
    simp only [hneg, if_false, decide_false, List.append_assoc]
    apply Signed.unsigned
    · intro hminus
      exact absurd (hhead '-' hminus) (by decide)
    · intro hplus
      exact absurd (hhead '+' hplus) (by decide)

theorem pointed_printed (n : Nat) (fraction : List Char) :
    Pointed (Nat.toDigits 10 n ++ '.' :: fraction) (Nat.toDigits 10 n) fraction := by
  apply Pointed.point
  intro hpoint
  exact absurd (Nat.isDigit_of_mem_toDigits (by decide) (by decide) hpoint) (by decide)

theorem length_significant_printed (n : Nat) :
    ((Text.paddedDecimal 8 (n % unitsPerWhole)).rdropWhile (· == '0')).length ≤ 8 := by
  have hlt : n % unitsPerWhole < 10 ^ 8 := Nat.mod_lt n (by decide)
  have hle :=
    (List.rdropWhile_prefix (· == '0') (Text.paddedDecimal 8 (n % unitsPerWhole))).length_le
  rwa [length_paddedDecimal hlt] at hle

/-- Behind its sign, each word but the least has a number that fits in a word again. -/
theorem natAbs_le_iff {w : Word} :
    (w.toInt.natAbs : ℚ) ≤ 2 ^ 63 - 1 ↔ w ≠ Int64.minValue := by
  have hleast := w.le_toInt
  have hmost := w.toInt_lt
  rw [natCast_le_iff, ne_eq, ← Int64.toInt_inj, show Int64.minValue.toInt = -2 ^ 63 from rfl]
  omega

/-- What is printed for an amount is read as that amount, if its number fits without the sign. -/
theorem verdict_printed (a : Amount) {n : Nat} (hn : a.units.toInt.natAbs = n) :
    Verdict (decide (a.units.toInt < 0)) (Nat.toDigits 10 (n / unitsPerWhole))
      (Text.paddedDecimal 8 (n % unitsPerWhole))
      (if a.units = Int64.minValue then .error .overflow else .ok a) := by
  have hvalue := value_printed n
  have hlength := length_significant_printed n
  have hsome :
      Nat.toDigits 10 (n / unitsPerWhole) ++ Text.paddedDecimal 8 (n % unitsPerWhole) ≠ [] := by
    simp [Nat.toDigits_ne_nil]
  split
  · rename_i hmin
    apply Verdict.overflow hsome (fun c => isDigit_of_mem_printed) hlength
    rw [hvalue, ← hn, ← not_le, natAbs_le_iff]
    exact not_not.mpr hmin
  · rename_i hmin
    apply Verdict.ok hsome (fun c => isDigit_of_mem_printed) hlength
    · rw [hvalue, ← hn]
      exact natAbs_le_iff.mpr hmin
    · rw [hvalue, ← Int.cast_natCast]
      by_cases hneg : a.units.toInt < 0
      · have habs : (n : Int) = -a.units.toInt := by omega
        simp [hneg, habs]
      · have habs : (n : Int) = a.units.toInt := by omega
        simp [hneg, habs]

/-- An amount is read back from its text, unless it is the least one: its text is refused, since the
number behind the sign does not fit in a word. -/
theorem amounts_are_read_back_but_the_least (a : Amount) :
    parse a.text = if a.units = Int64.minValue then .error .overflow else .ok a := by
  have hsign := signed_chars a
  rw [← String.toList_ofList (l := a.chars)] at hsign
  exact (parse_eq_iff hsign (pointed_printed _ _)).mpr (verdict_printed a rfl)

/-- The text of the least amount is not read, although the amount fits in a word. -/
theorem the_least_amount_is_not_read_back :
    (⟨Int64.minValue⟩ : Amount).text = "-92233720368.54775808" ∧
    parse "-92233720368.54775808" = .error .overflow ∧
    ¬ ∀ a : Amount, parse a.text = .ok a := by
  have htext : (⟨Int64.minValue⟩ : Amount).text = "-92233720368.54775808" := by decide +kernel
  have hparse : parse "-92233720368.54775808" = .error .overflow := by decide +kernel
  refine ⟨htext, hparse, ?_⟩
  intro h
  have hback := h ⟨Int64.minValue⟩
  rw [htext, hparse] at hback
  cases hback

end Pledge.Amount
