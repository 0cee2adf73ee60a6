-- What a listing tells of the code. A line is read from the left: at a known
-- place the mark, the name and each operand are found again, whatever way an
-- operand is written in, so two codes with one listing are the same code.
import Pledge.Proofs.Listing

namespace Pledge

/-! ## Numbers -/

namespace Text

/-- The value of a hexadecimal digit. -/
def hexDigitValue (c : Char) : Nat := if c.isDigit then c.toNat - 48 else c.toNat - 87

/-- The number that hexadecimal digits stand for. -/
def hexValue (cs : List Char) : Nat := cs.foldl (fun n c => n * 16 + hexDigitValue c) 0

theorem hexDigitValue_digitChar {d : Nat} (h : d < 16) : hexDigitValue d.digitChar = d := by
  have hall : ∀ d : Fin 16, hexDigitValue (Nat.digitChar d) = d := by decide
  exact hall ⟨d, h⟩

theorem hexValue_concat (cs : List Char) (c : Char) :
    hexValue (cs ++ [c]) = hexValue cs * 16 + hexDigitValue c := by
  simp [hexValue]

theorem hexValue_toDigits (n : Nat) : hexValue (Nat.toDigits 16 n) = n := by
  induction n using Nat.strongRecOn with
  | ind n ih =>
    rw [Nat.toDigits_eq_if (by decide)]
    split
    · rename_i hn
      simpa [hexValue] using hexDigitValue_digitChar hn
    · rw [hexValue_concat, ih (n / 16) (by omega), hexDigitValue_digitChar (by omega)]
      omega

theorem hexValue_zeros_append (k : Nat) (cs : List Char) :
    hexValue (List.replicate k '0' ++ cs) = hexValue cs := by
  have hzero : hexDigitValue '0' = 0 := by decide
  induction k with
  | zero => rfl
  | succ k ih =>
    rw [List.replicate_succ, List.cons_append, ← ih]
    simp [hexValue, hzero]

/-- A number is found again from its digits, zeros in front or not. -/
theorem hexValue_paddedHex (width n : Nat) : hexValue (paddedHex width n) = n := by
  rw [paddedHex, List.leftpad, hexValue_zeros_append, hexValue_toDigits]

theorem nat_of_text {m n : Nat} (h : toString m = toString n) : m = n := by
  have hdigits := congrArg (fun text => Nat.ofDigitChars 10 text.toList 0) h
  simpa using hdigits

theorem nat_text_ne_minus (n : Nat) (text : String) : toString n ≠ "-" ++ text := by
  intro h
  have hminus : '-' ∈ Nat.toDigits 10 n := by
    rw [← Nat.toList_repr, ← Nat.toString_eq_repr, h]
    simp
  have hdigit := Nat.isDigit_of_mem_toDigits (by decide) (by decide) hminus
  revert hdigit
  decide

theorem int_of_text {m n : Int} (h : toString m = toString n) : m = n := by
  by_cases hm : 0 ≤ m
  · by_cases hn : 0 ≤ n
    · rw [toString_of_nonneg hm, toString_of_nonneg hn] at h
      have hnat := nat_of_text h
      omega
    · rw [toString_of_nonneg hm, toString_of_neg hn] at h
      exact absurd h (nat_text_ne_minus _ _)
  · by_cases hn : 0 ≤ n
    · rw [toString_of_neg hm, toString_of_nonneg hn] at h
      exact absurd h.symm (nat_text_ne_minus _ _)
    · rw [toString_of_neg hm, toString_of_neg hn] at h
      have hnat := nat_of_text ((String.append_right_inj _).mp h)
      omega

/-! ## Fields -/

/-- Where characters of a kind end, be it at the end of the text, they can be told from the rest. -/
theorem append_inj_of_stop {p : Char → Bool} {front front' rest rest' : List Char}
    (hfront : ∀ c ∈ front, p c = true) (hfront' : ∀ c ∈ front', p c = true)
    (hrest : ∀ c ∈ rest.head?, p c = false) (hrest' : ∀ c ∈ rest'.head?, p c = false)
    (h : front ++ rest = front' ++ rest') : front = front' ∧ rest = rest' := by
  have hstop {cs : List Char} (hcs : ∀ c ∈ cs.head?, p c = false) : cs.takeWhile p = [] := by
    cases cs with
    | nil => rfl
    | cons c cs => simp [hcs c rfl]
  have hwhile := congrArg (List.takeWhile p) h
  rw [List.takeWhile_append_of_pos hfront, List.takeWhile_append_of_pos hfront', hstop hrest,
    hstop hrest', List.append_nil, List.append_nil] at hwhile
  subst hwhile
  exact ⟨rfl, List.append_cancel_left h⟩

/-- A text with no comma in it. -/
def OneField (text : String) : Prop := ',' ∉ text.toList

instance (text : String) : Decidable (OneField text) :=
  inferInstanceAs (Decidable (',' ∉ text.toList))

theorem oneField_of_plain {text : String} (h : ∀ c ∈ text.toList, isPlain c = true) :
    OneField text := by
  intro hcomma
  exact (isPlain_iff.mp (h ',' hcomma)).2.2 rfl

theorem oneField_append {a b : String} (ha : OneField a) (hb : OneField b) : OneField (a ++ b) := by
  unfold OneField at *
  simp [ha, hb]

theorem toList_intercalate_cons_cons (first next : String) (rest : List String) :
    (", ".intercalate (first :: next :: rest)).toList =
      first.toList ++ ',' :: ' ' :: (", ".intercalate (next :: rest)).toList := by
  simp [String.intercalate_cons_cons]

/-- Fields are found again between the commas. By induction on the first row of fields; the second
is as long, so both end at the same field. -/
theorem eq_of_intercalate {texts texts' : List String} (hlength : texts.length = texts'.length)
    (h : ∀ text ∈ texts, OneField text) (h' : ∀ text ∈ texts', OneField text)
    (heq : ", ".intercalate texts = ", ".intercalate texts') : texts = texts' := by
  have hfield {text : String} (htext : OneField text) : ∀ c ∈ text.toList, (c != ',') = true := by
    intro c hc
    rw [bne_iff_ne]
    rintro rfl
    exact htext hc
  induction texts generalizing texts' with
  | nil => exact (List.length_eq_zero_iff.mp hlength.symm).symm
  | cons text rest ih =>
    cases texts' with
    | nil => simp at hlength
    | cons text' rest' =>
      have hlength' : rest.length = rest'.length := by simpa using hlength
      cases rest with
      | nil =>
        obtain rfl : rest' = [] := List.length_eq_zero_iff.mp hlength'.symm
        simpa using heq
      | cons next rest =>
        cases rest' with
        | nil => simp at hlength'
        | cons next' rest' =>
          have hchars := congrArg String.toList heq
          rw [toList_intercalate_cons_cons, toList_intercalate_cons_cons] at hchars
          obtain ⟨hfirst, hrest⟩ := append_inj_of_stop (hfield (h text (by simp)))
            (hfield (h' text' (by simp))) (by simp) (by simp) hchars
          simp only [List.cons.injEq, true_and] at hrest
          rw [String.toList_inj.mp hfirst, ih hlength' (fun t ht => h t (by simp [ht]))
            (fun t ht => h' t (by simp [ht])) (String.toList_inj.mp hrest)]

end Text

/-! ## Operands -/

/-- What is found again from its text is told by its text. -/
theorem eq_of_found {α β : Type} {text : α → β} {find? : β → Option α}
    (hfind : ∀ a, find? (text a) = some a) {a b : α} (h : text a = text b) : a = b := by
  have hfound := hfind a
  rw [h, hfind] at hfound
  exact (Option.some.inj hfound).symm

theorem Opcode.ofMnemonic?_mnemonic (op : Opcode) : ofMnemonic? op.mnemonic = some op := by
  have hall : all.map (fun op => ofMnemonic? op.mnemonic) = all.map some := by decide +kernel
  exact List.map_inj_left.mp hall op (List.mem_of_find?_eq_some (ofByte?_byte op))

theorem Function.ofMnemonic?_mnemonic (f : Function) : ofMnemonic? f.mnemonic = some f := by
  have hall : all.map (fun f => ofMnemonic? f.mnemonic) = all.map some := by decide +kernel
  exact List.map_inj_left.mp hall f (List.mem_of_find?_eq_some (ofCode?_code f))

theorem Opcode.eq_of_mnemonic {op op' : Opcode} (h : op.mnemonic = op'.mnemonic) : op = op' :=
  eq_of_found ofMnemonic?_mnemonic h

theorem Function.eq_of_mnemonic {f f' : Function} (h : f.mnemonic = f'.mnemonic) : f = f' :=
  eq_of_found ofMnemonic?_mnemonic h

/-- An instruction is its opcode and its operands. -/
theorem InstrWith.eq_of_operands {O A : Type} {i j : InstrWith O A} (hop : i.opcode = j.opcode)
    (hos : i.operands = j.operands) : i = j := by
  have hi := i.ofOperands?_operands []
  rw [hop, hos, ofOperands?_operands] at hi
  exact (Option.some.inj hi).symm

namespace Listing

open Text

/-- An offset in an instruction at a position: where it leads, or itself if that is nowhere. -/
def offsetText (position : Nat) (o : Int8) : String :=
  (positionAfter? position o.toInt).elim (Operand.text (.offset o)) Operand.positionText

/-- An operand of an instruction at a position. -/
def shownAt (position : Nat) : Operand → String
  | .offset o => offsetText position o
  | operand => operand.text

/-- An instruction has one offset at most, so the one that is shown as a position is the one that
the instruction branches by. -/
theorem branchTarget?_of_mem {i : Instr} {o : Int8} (h : .offset o ∈ i.operands) (position : Nat) :
    (i.raw position).branchTarget? = positionAfter? position o.toInt := by
  cases i with
  | branchZero | branchNonzero | branch =>
    simp [InstrWith.operands] at h
    simp [Instr.raw, RawInstr.branchTarget?, InstrWith.operands, h]
  | call _ args | callInto _ _ args => cases args <;> simp [InstrWith.operands] at h
  | _ => simp [InstrWith.operands] at h

theorem operandText_raw {i : Instr} {operand : Operand} (h : operand ∈ i.operands)
    (position : Nat) : operandText (i.raw position) operand = shownAt position operand := by
  unfold operandText shownAt
  cases operand with
  | offset o =>
    rw [branchTarget?_of_mem h]
    show _ = offsetText position o
    unfold offsetText
    cases positionAfter? position o.toInt <;> rfl
  | _ => rfl

theorem position_of_text {m n : Nat} (h : Operand.positionText m = Operand.positionText n) :
    m = n := by
  unfold Operand.positionText at h
  obtain ⟨_, hdigits⟩ := List.cons.inj (String.ofList_inj.mp h)
  rw [← hexValue_paddedHex 4 m, hdigits, hexValue_paddedHex]

theorem text_offset_of_nonneg {o : Int8} (h : 0 ≤ o.toInt) :
    Operand.text (.offset o) = "+" ++ toString o.toInt := by
  show (if 0 ≤ o.toInt then "+" else "") ++ toString o.toInt = _
  rw [if_pos h]

theorem text_offset_of_neg {o : Int8} (h : ¬ 0 ≤ o.toInt) :
    Operand.text (.offset o) = toString o.toInt := by
  show (if 0 ≤ o.toInt then "+" else "") ++ toString o.toInt = _
  rw [if_neg h, String.empty_append]

theorem plain_offset (o : Int8) : ∀ c ∈ (Operand.text (.offset o)).toList, isPlain c = true := by
  by_cases h : 0 ≤ o.toInt
  · have hplus : isPlain '+' = true := by decide
    rw [text_offset_of_nonneg h, String.toList_append]
    intro c hc
    rcases List.mem_append.mp hc with hc | hc
    · rwa [List.mem_singleton.mp hc]
    · exact plain_int _ c hc
  · rw [text_offset_of_neg h]
    exact plain_int _

theorem offset_text_ne_position (o : Int8) (target : Nat) :
    Operand.text (.offset o) ≠ Operand.positionText target := by
  intro h
  have hcolon : ':' ∈ (Operand.text (.offset o)).toList := by
    rw [h]
    simp [Operand.positionText]
  exact (isPlain_iff.mp (plain_offset o ':' hcolon)).2.1 rfl

theorem offset_of_text {o o' : Int8} (h : Operand.text (.offset o) = Operand.text (.offset o')) :
    o = o' := by
  have hsigns (n n' : Int) (hn' : ¬ 0 ≤ n') : "+" ++ toString n ≠ toString n' := by
    intro hsign
    rw [toString_of_neg hn'] at hsign
    simpa using congrArg String.toList hsign
  apply Int8.toInt_inj.mp
  by_cases ho : 0 ≤ o.toInt
  · by_cases ho' : 0 ≤ o'.toInt
    · rw [text_offset_of_nonneg ho, text_offset_of_nonneg ho'] at h
      exact int_of_text ((String.append_right_inj _).mp h)
    · rw [text_offset_of_nonneg ho, text_offset_of_neg ho'] at h
      exact absurd h (hsigns _ _ ho')
  · by_cases ho' : 0 ≤ o'.toInt
    · rw [text_offset_of_neg ho, text_offset_of_nonneg ho'] at h
      exact absurd h.symm (hsigns _ _ ho)
    · rw [text_offset_of_neg ho, text_offset_of_neg ho'] at h
      exact int_of_text h

/-- An offset is found again from the place it leads to. Where it leads nowhere it shows its sign,
and no position does. -/
theorem offset_of_offsetText {position : Nat} {o o' : Int8}
    (h : offsetText position o = offsetText position o') : o = o' := by
  unfold offsetText at h
  cases ho : positionAfter? position o.toInt with
  | none =>
    cases ho' : positionAfter? position o'.toInt with
    | none =>
      rw [ho, ho'] at h
      exact offset_of_text h
    | some target =>
      rw [ho, ho'] at h
      exact absurd h (offset_text_ne_position o target)
  | some target =>
    cases ho' : positionAfter? position o'.toInt with
    | none =>
      rw [ho, ho'] at h
      exact absurd h.symm (offset_text_ne_position o' target)
    | some target' =>
      rw [ho, ho'] at h
      have htarget := position_of_text h
      have hto := eq_of_positionAfter? ho
      have hto' := eq_of_positionAfter? ho'
      exact Int8.toInt_inj.mp (by omega)

/-- Operands of one kind at one position are shown alike only if they are the same. -/
theorem eq_of_shownAt {position : Nat} {operand operand' : Operand}
    (hkind : operand.kind = operand'.kind)
    (h : shownAt position operand = shownAt position operand') : operand = operand' := by
  cases operand <;> cases operand' <;> simp only [OperandWith.kind, reduceCtorEq] at hkind
  case slot.slot n n' =>
    have hnat := nat_of_text ((String.append_right_inj _).mp h)
    rw [UInt32.toNat_inj.mp hnat]
  case value.value v v' =>
    have hint := int_of_text ((String.append_right_inj _).mp h)
    rw [Int64.toInt_inj.mp hint]
  case function.function f f' => rw [Function.eq_of_mnemonic h]
  case offset.offset o o' => rw [offset_of_offsetText h]
  case address.address a a' => rw [UInt32.toNat_inj.mp (position_of_text h)]

theorem oneField_position (target : Nat) : OneField (Operand.positionText target) := by
  have hdigits : ',' ∉ paddedHex 4 target := by
    intro hcomma
    exact (isPlain_iff.mp (plain_paddedHex 4 target ',' hcomma)).2.2 rfl
  unfold OneField Operand.positionText
  simpa using hdigits

theorem oneField_shownAt (position : Nat) (operand : Operand) :
    OneField (shownAt position operand) := by
  cases operand with
  | slot n => exact oneField_append (by decide) (oneField_of_plain (plain_nat _))
  | value v => exact oneField_append (by decide) (oneField_of_plain (plain_int _))
  | function f => exact oneField_of_plain (plain_functionName f).1
  | offset o =>
    show OneField (offsetText position o)
    unfold offsetText
    cases positionAfter? position o.toInt with
    | none => exact oneField_of_plain (plain_offset o)
    | some target => exact oneField_position target
  | address a => exact oneField_position a.toNat

theorem eq_of_map_shownAt {position : Nat} {os os' : List Operand}
    (hkinds : os.map OperandWith.kind = os'.map OperandWith.kind)
    (h : os.map (shownAt position) = os'.map (shownAt position)) : os = os' := by
  induction os generalizing os' with
  | nil => exact (List.map_eq_nil_iff.mp h.symm).symm
  | cons o os ih =>
    cases os' with
    | nil => cases h
    | cons o' os' =>
      obtain ⟨hkind, hkinds⟩ := List.cons.inj hkinds
      obtain ⟨htext, htexts⟩ := List.cons.inj h
      rw [eq_of_shownAt hkind htext, ih hkinds htexts]

theorem operandsText_raw (i : Instr) (position : Nat) :
    operandsText (i.raw position) = ", ".intercalate (i.operands.map (shownAt position)) := by
  have hmap : i.operands.map (operandText (i.raw position)) = i.operands.map (shownAt position) :=
    List.map_congr_left fun _ hmem => operandText_raw hmem position
  unfold operandsText
  rw [← hmap]
  rfl

/-- The operands of an opcode are found again from their text. -/
theorem operands_of_text {i j : Instr} {position : Nat} (hop : i.opcode = j.opcode)
    (h : operandsText (i.raw position) = operandsText (j.raw position)) :
    i.operands = j.operands := by
  have hkinds : i.operands.map OperandWith.kind = j.operands.map OperandWith.kind := by
    rw [i.kind_operands, j.kind_operands, hop]
  have hfields (os : List Operand) : ∀ text ∈ os.map (shownAt position), OneField text := by
    simpa using fun o _ => oneField_shownAt position o
  rw [operandsText_raw, operandsText_raw] at h
  apply eq_of_map_shownAt hkinds
  apply eq_of_intercalate _ (hfields _) (hfields _) h
  simpa using congrArg List.length hkinds

/-! ## Lines -/

theorem head?_lineTail (r : RawInstr) : ∀ c ∈ (lineTail r).head?, (!isBlank c) = false := by
  unfold lineTail
  split
  · simp
  · cases 18 - r.opcode.mnemonic.toList.length <;> simp [List.replicate_succ, isBlank]

theorem operandsText_of_lineTail {i j : Instr} {position : Nat} (hop : i.opcode = j.opcode)
    (h : lineTail (i.raw position) = lineTail (j.raw position)) :
    operandsText (i.raw position) = operandsText (j.raw position) := by
  have hnone : i.operands = [] ↔ j.operands = [] := by
    have hi := i.kind_operands
    rw [hop, ← j.kind_operands] at hi
    rw [← List.map_eq_nil_iff, hi, List.map_eq_nil_iff]
  by_cases hi : i.operands = []
  · rw [operandsText_raw, operandsText_raw, hi, hnone.mp hi]
  · have hi' : (i.raw position).operands ≠ [] := hi
    have hj' : (j.raw position).operands ≠ [] := fun hj => hi (hnone.mpr hj)
    unfold lineTail at h
    rw [if_neg hi', if_neg hj'] at h
    have htexts := List.append_inj_right h (by simp [Instr.raw, hop])
    exact String.toList_inj.mp (List.cons.inj htexts).2

/-- At a known place a line tells the mark and the instruction. The name ends at the first blank or
with the line, and the operands are what stands behind the blanks that follow it. -/
theorem instr_of_line {i j : Instr} {position : Nat} {marked marked' : Bool}
    (h : instrLine marked (i.raw position) = instrLine marked' (j.raw position)) :
    marked = marked' ∧ i = j := by
  have hname (i : Instr) : ∀ c ∈ i.opcode.mnemonic.toList, (!isBlank c) = true := by
    intro c hc
    rw [(isPlain_iff.mp ((plain_mnemonic i.opcode).1 c hc)).1]
    rfl
  have hchars := congrArg String.toList h
  rw [toList_instrLine, toList_instrLine] at hchars
  simp only [lineFront, List.append_assoc] at hchars
  obtain ⟨hmark, hrest⟩ := List.cons.inj (List.append_cancel_left hchars)
  obtain ⟨_, hrest⟩ := List.cons.inj hrest
  obtain ⟨hmnemonic, htail⟩ :=
    append_inj_of_stop (hname i) (hname j) (head?_lineTail _) (head?_lineTail _) hrest
  have hop : i.opcode = j.opcode := Opcode.eq_of_mnemonic (String.toList_inj.mp hmnemonic)
  have hos := operands_of_text hop (operandsText_of_lineTail hop htail)
  refine ⟨?_, InstrWith.eq_of_operands hop hos⟩
  cases marked <;> cases marked' <;> simp at hmark ⊢

/-- Lines in a row tell the instructions, whatever is marked. By induction on the instructions; the
place of each line follows from the lengths of those in front of it. -/
theorem instrs_of_lines {is js : List Instr} {offset : Nat} (marks marks' : Nat → Bool)
    (h : (Instr.rawsFrom offset is).map (fun r => instrLine (marks r.offset) r) =
      (Instr.rawsFrom offset js).map fun r => instrLine (marks' r.offset) r) : is = js := by
  induction is generalizing js offset with
  | nil =>
    cases js with
    | nil => rfl
    | cons j js => exact absurd h.symm (List.cons_ne_nil _ _)
  | cons i is ih =>
    cases js with
    | nil => exact absurd h (List.cons_ne_nil _ _)
    | cons j js =>
      obtain ⟨hline, hrest⟩ := List.cons.inj h
      obtain ⟨_, rfl⟩ := instr_of_line hline
      rw [ih hrest]

/-! ## The law of plain listings -/

theorem lines_plain (instrs : List RawInstr) :
    lines .empty instrs =
      instrs.map fun r => instrLine ((instrs.filterMap target?).contains r.offset) r := by
  rw [List.map_eq_flatMap]
  rfl

theorem oneLine_of_mem_plain {instrs : List RawInstr} {line : String}
    (h : line ∈ lines .empty instrs) :
    OneLine line := by
  have hlabels : ∀ entry ∈ Labels.empty.entries, OneLine entry.1 := by simp
  exact oneLine_of_mem_lines hlabels h

theorem plain_eq_ok {code : Bytes} {text : String} :
    plain code = .ok text ↔
      ∃ is, code = Instr.encodeAll is ∧ text = unlines (lines .empty (Instr.rawsFrom 0 is)) := by
  refine Except.bind_eq_ok.trans ⟨?_, ?_⟩
  · rintro ⟨raws, hdecode, h⟩
    cases h
    obtain ⟨is, rfl, rfl⟩ := Instr.exists_of_decodeAll hdecode
    exact ⟨is, rfl, rfl⟩
  · rintro ⟨is, rfl, rfl⟩
    exact ⟨_, Instr.decodeAll_encodeAll is, rfl⟩

/-- The listing tells the code: two codes have one listing exactly where they are the same row of
instructions. -/
theorem a_listing_tells_its_code (code code' : Bytes) :
    (∃ text, plain code = .ok text ∧ plain code' = .ok text) ↔
      code = code' ∧ ∃ is : List Instr, code = Instr.encodeAll is := by
  constructor
  · rintro ⟨text, h, h'⟩
    obtain ⟨is, rfl, rfl⟩ := plain_eq_ok.mp h
    obtain ⟨js, rfl, htext⟩ := plain_eq_ok.mp h'
    have hlines := congrArg Text.lines htext
    rw [lines_unlines fun _ => oneLine_of_mem_plain, lines_unlines fun _ => oneLine_of_mem_plain,
      lines_plain, lines_plain] at hlines
    rw [instrs_of_lines _ _ hlines]
    exact ⟨rfl, js, rfl⟩
  · rintro ⟨rfl, is, hcode⟩
    have h := plain_eq_ok.mpr ⟨is, hcode, rfl⟩
    exact ⟨_, h, h⟩

end Listing

end Pledge
