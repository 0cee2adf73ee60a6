-- Texts made of lines, and the listing of code as one. Each line of a listing
-- is an instruction or a label, and which of them it is shows at its end: the
-- labels can be taken out again, and what stays is the listing without them.
import Pledge.Listing
import Pledge.Proofs.Decoding
import Pledge.Proofs.Texts

namespace Pledge

/-! ## Lines -/

namespace Text

/-- The lines of a text. A newline ends each of them. -/
def lines (text : String) : List String :=
  (text.toList.splitOn '\n').dropLast.map String.ofList

/-- A text that is one line. -/
def OneLine (text : String) : Prop := '\n' ∉ text.toList

instance (text : String) : Decidable (OneLine text) :=
  inferInstanceAs (Decidable ('\n' ∉ text.toList))

theorem unlines_cons (line : String) (rest : List String) :
    unlines (line :: rest) = line ++ "\n" ++ unlines rest := by
  simp [unlines]

theorem splitOn_unlines {ls : List String} (h : ∀ line ∈ ls, OneLine line) :
    (unlines ls).toList.splitOn '\n' = ls.map String.toList ++ [[]] := by
  induction ls with
  | nil => simp [unlines]
  | cons line rest ih =>
    have hline : '\n' ∉ line.toList := h line (by simp)
    have hrest : ∀ line ∈ rest, OneLine line := fun l hl => h l (by simp [hl])
    have hcons : (unlines (line :: rest)).toList =
        line.toList ++ '\n' :: (unlines rest).toList := by
      simp [unlines_cons]
    rw [hcons, List.splitOn_append_cons_self_of_not_mem hline, ih hrest]
    simp

/-- Lines are found again in the text that they make. -/
theorem lines_unlines {ls : List String} (h : ∀ line ∈ ls, OneLine line) :
    lines (unlines ls) = ls := by
  unfold lines
  rw [splitOn_unlines h, List.dropLast_concat, List.map_map]
  simp [Function.comp_def]

theorem oneLine_append {a b : String} : OneLine (a ++ b) ↔ OneLine a ∧ OneLine b := by
  simp [OneLine]

/-! ## Characters -/

/-- A character that is neither a blank nor a colon nor a comma. -/
def isPlain (c : Char) : Bool := !isBlank c && c != ':' && c != ','

theorem isPlain_iff {c : Char} : isPlain c = true ↔ isBlank c = false ∧ c ≠ ':' ∧ c ≠ ',' := by
  simp [isPlain, and_assoc]

/-- Characters on one line, the last of which is plain. -/
structure EndsPlain (cs : List Char) : Prop where
  oneLine : '\n' ∉ cs
  last : ∃ front c, cs = front ++ [c] ∧ isPlain c = true

theorem not_isPlain_newline : isPlain '\n' = false := by decide

theorem oneLine_of_plain {cs : List Char} (h : ∀ c ∈ cs, isPlain c = true) : '\n' ∉ cs := by
  intro hmem
  have hplain := h '\n' hmem
  rw [not_isPlain_newline] at hplain
  cases hplain

namespace EndsPlain

variable {cs front : List Char}

theorem of_plain (hne : cs ≠ []) (h : ∀ c ∈ cs, isPlain c = true) : EndsPlain cs := by
  refine ⟨oneLine_of_plain h, cs.dropLast, cs.getLast hne, ?_, ?_⟩
  · exact (List.dropLast_concat_getLast hne).symm
  · exact h _ (List.getLast_mem hne)

theorem append (h : EndsPlain cs) (hfront : '\n' ∉ front) : EndsPlain (front ++ cs) := by
  obtain ⟨init, c, rfl, hc⟩ := h.last
  refine ⟨?_, front ++ init, c, by simp, hc⟩
  intro hmem
  rcases List.mem_append.mp hmem with hmem | hmem
  · exact hfront hmem
  · exact h.oneLine hmem

theorem cons (h : EndsPlain cs) {c : Char} (hc : c ≠ '\n') : EndsPlain (c :: cs) := by
  have hone : '\n' ∉ [c] := by simpa using hc.symm
  exact h.append hone

/-- Blanks behind such characters are all that is trimmed. -/
theorem trimEnd_append (h : EndsPlain cs) {blanks : List Char}
    (hblanks : ∀ c ∈ blanks, isBlank c = true) : trimEnd (cs ++ blanks) = cs := by
  obtain ⟨init, c, rfl, hc⟩ := h.last
  rw [Text.trimEnd_append hblanks, trimEnd_concat (isPlain_iff.mp hc).1]

theorem trimEnd_eq (h : EndsPlain cs) : trimEnd cs = cs := by
  have htrim : trimEnd (cs ++ []) = cs := h.trimEnd_append (by simp)
  simpa using htrim

end EndsPlain

/-! ## Numbers -/

theorem isPlain_digitChar (d : Nat) : isPlain d.digitChar = true := by
  have hall : ∀ d : Fin 16, isPlain (Nat.digitChar d) = true := by decide
  by_cases hd : d < 16
  · exact hall ⟨d, hd⟩
  · rw [Nat.digitChar_eq_star.mpr (by omega)]
    decide

theorem plain_toDigits {b : Nat} (hb : 1 < b) (n : Nat) :
    ∀ c ∈ Nat.toDigits b n, isPlain c = true := by
  induction n using Nat.strongRecOn with
  | ind n ih =>
    intro c hc
    rw [Nat.toDigits_eq_if hb] at hc
    split at hc
    · rw [List.mem_singleton.mp hc]
      exact isPlain_digitChar n
    · rcases List.mem_append.mp hc with hc | hc
      · exact ih (n / b) (Nat.div_lt_self (by omega) hb) c hc
      · rw [List.mem_singleton.mp hc]
        exact isPlain_digitChar _

theorem plain_paddedHex (width n : Nat) : ∀ c ∈ paddedHex width n, isPlain c = true := by
  intro c hc
  rcases List.mem_append.mp hc with hc | hc
  · rw [(List.mem_replicate.mp hc).2]
    decide
  · exact plain_toDigits (by decide) n c hc

theorem endsPlain_paddedHex (width n : Nat) : EndsPlain (paddedHex width n) := by
  apply EndsPlain.of_plain
  · simp [paddedHex, List.leftpad]
  · exact plain_paddedHex width n

theorem plain_nat (n : Nat) : ∀ c ∈ (toString n).toList, isPlain c = true := by
  rw [Nat.toString_eq_repr, Nat.toList_repr]
  exact plain_toDigits (by decide) n

theorem endsPlain_nat (n : Nat) : EndsPlain (toString n).toList := by
  apply EndsPlain.of_plain
  · rw [Nat.toString_eq_repr, Nat.toList_repr]
    exact Nat.toDigits_ne_nil
  · exact plain_nat n

theorem toString_of_nonneg {n : Int} (h : 0 ≤ n) : toString n = toString n.toNat := by
  rw [Int.toString_eq_repr, Int.repr_eq_if, if_pos h, Nat.toString_eq_repr]

theorem toString_of_neg {n : Int} (h : ¬ 0 ≤ n) : toString n = "-" ++ toString (-n).toNat := by
  rw [Int.toString_eq_repr, Int.repr_eq_if, if_neg h, Nat.toString_eq_repr]

theorem plain_int (n : Int) : ∀ c ∈ (toString n).toList, isPlain c = true := by
  by_cases h : 0 ≤ n
  · rw [toString_of_nonneg h]
    exact plain_nat _
  · have hminus : isPlain '-' = true := by decide
    rw [toString_of_neg h, String.toList_append]
    intro c hc
    rcases List.mem_append.mp hc with hc | hc
    · rwa [List.mem_singleton.mp hc]
    · exact plain_nat _ c hc

theorem endsPlain_int (n : Int) : EndsPlain (toString n).toList := by
  by_cases h : 0 ≤ n
  · rw [toString_of_nonneg h]
    exact endsPlain_nat _
  · rw [toString_of_neg h, String.toList_append]
    exact (endsPlain_nat _).append (by decide)

end Text

namespace Listing

open Text

/-! ## Instructions -/

theorem plain_mnemonic (op : Opcode) :
    (∀ c ∈ op.mnemonic.toList, isPlain c = true) ∧ op.mnemonic.toList ≠ [] := by
  have hplain : op.mnemonic.toList.all isPlain = true ∧ op.mnemonic.toList ≠ [] := by
    cases op <;> decide
  exact ⟨List.all_eq_true.mp hplain.1, hplain.2⟩

theorem plain_functionName (f : Function) :
    (∀ c ∈ f.mnemonic.toList, isPlain c = true) ∧ f.mnemonic.toList ≠ [] := by
  have hall : Function.all.all (fun f => f.mnemonic.toList.all isPlain &&
      !f.mnemonic.toList.isEmpty) = true := by decide +kernel
  have hmem : f ∈ Function.all := List.mem_of_find?_eq_some (Function.ofCode?_code f)
  have hf := List.all_eq_true.mp hall f hmem
  simp only [Bool.and_eq_true, Bool.not_eq_true', List.isEmpty_eq_false_iff] at hf
  exact ⟨List.all_eq_true.mp hf.1, hf.2⟩

theorem endsPlain_mnemonic (op : Opcode) : EndsPlain op.mnemonic.toList :=
  .of_plain (plain_mnemonic op).2 (plain_mnemonic op).1

theorem endsPlain_functionName (f : Function) : EndsPlain f.mnemonic.toList :=
  .of_plain (plain_functionName f).2 (plain_functionName f).1

theorem endsPlain_positionText (n : Nat) : EndsPlain (Operand.positionText n).toList := by
  unfold Operand.positionText
  rw [String.toList_ofList]
  exact (endsPlain_paddedHex 4 n).cons (by decide)

theorem endsPlain_text (operand : Operand) : EndsPlain operand.text.toList := by
  unfold Operand.text
  cases operand with
  | slot n =>
    rw [String.toList_append]
    exact (endsPlain_nat _).append (by decide)
  | value v =>
    rw [String.toList_append]
    exact (endsPlain_int _).append (by decide)
  | function f => exact endsPlain_functionName f
  | offset o =>
    rw [String.toList_append]
    apply (endsPlain_int _).append
    split <;> decide
  | address a => exact endsPlain_positionText _

theorem endsPlain_operandText (r : RawInstr) (operand : Operand) :
    EndsPlain (operandText r operand).toList := by
  unfold operandText
  split
  · exact endsPlain_positionText _
  · exact endsPlain_text _

/-- Texts with separators between them end as the last of them does. -/
theorem endsPlain_intercalate {separator : String} (hs : OneLine separator) {texts : List String}
    (hne : texts ≠ []) (h : ∀ text ∈ texts, EndsPlain text.toList) :
    EndsPlain (separator.intercalate texts).toList := by
  induction texts with
  | nil => exact absurd rfl hne
  | cons text rest ih =>
    have htext := h text (by simp)
    cases rest with
    | nil => simpa using htext
    | cons next rest =>
      have hrest := ih (by simp) fun t ht => h t (by simp [ht])
      rw [String.intercalate_cons_cons, String.toList_append, String.toList_append]
      apply hrest.append
      simpa using ⟨htext.oneLine, hs⟩

/-- The part of a line that every instruction has: the offset, the mark and the name. -/
def lineFront (marked : Bool) (r : RawInstr) : List Char :=
  paddedHex 4 r.offset ++ [if marked then '>' else ' ', ' '] ++ r.opcode.mnemonic.toList

theorem endsPlain_lineFront (marked : Bool) (r : RawInstr) : EndsPlain (lineFront marked r) := by
  apply (endsPlain_mnemonic r.opcode).append
  have hoffset := (endsPlain_paddedHex 4 r.offset).oneLine
  cases marked <;> simpa using hoffset

/-- The rest of a line: the blanks behind the name and the operands. Without operands there is none.
-/
def lineTail (r : RawInstr) : List Char :=
  if r.operands = [] then []
  else List.replicate (18 - r.opcode.mnemonic.toList.length) ' ' ++ ' ' :: (operandsText r).toList

theorem endsPlain_operandsText {r : RawInstr} (h : r.operands ≠ []) :
    EndsPlain (operandsText r).toList := by
  apply endsPlain_intercalate (by decide)
  · simpa using h
  · simpa using fun operand _ => endsPlain_operandText r operand

theorem endsPlain_line (marked : Bool) (r : RawInstr) :
    EndsPlain (lineFront marked r ++ lineTail r) := by
  have hfront := endsPlain_lineFront marked r
  unfold lineTail
  split
  · simpa using hfront
  · rename_i hoperands
    have hlast := (endsPlain_operandsText hoperands).cons (c := ' ') (by decide)
    have hblanks : '\n' ∉ List.replicate (18 - r.opcode.mnemonic.toList.length) ' ' := by simp
    exact (hlast.append hblanks).append hfront.oneLine

/-- The line of an instruction. Where there are no operands, what is trimmed are the blanks behind
the name. -/
theorem toList_instrLine (marked : Bool) (r : RawInstr) :
    (instrLine marked r).toList = lineFront marked r ++ lineTail r := by
  have hchars : (instrLine marked r).toList = trimEnd (lineFront marked r ++
      (List.replicate (18 - r.opcode.mnemonic.toList.length) ' ' ++
        ' ' :: (operandsText r).toList)) := by
    unfold instrLine lineFront List.rightpad
    rw [String.toList_ofList]
    simp only [List.append_assoc]
  rw [hchars]
  by_cases hoperands : r.operands = []
  · have hnone : (operandsText r).toList = [] := by simp [operandsText, hoperands]
    rw [(endsPlain_lineFront marked r).trimEnd_append]
    · simp [lineTail, hoperands]
    · rw [hnone]
      simp [or_imp, forall_and, isBlank]
  · have hline := endsPlain_line marked r
    rw [lineTail, if_neg hoperands] at hline ⊢
    exact hline.trimEnd_eq

theorem endsPlain_instrLine (marked : Bool) (r : RawInstr) :
    EndsPlain (instrLine marked r).toList := by
  rw [toList_instrLine]
  exact endsPlain_line marked r

/-! ## Labels -/

/-- A line that names a place in the code: it ends in a colon. -/
def isLabel (line : String) : Bool := line.toList.getLast? == some ':'

theorem isLabel_name (name : String) : isLabel (name ++ ":") = true := by
  simp [isLabel]

theorem not_isLabel_instrLine (marked : Bool) (r : RawInstr) :
    isLabel (instrLine marked r) = false := by
  obtain ⟨front, c, hchars, hc⟩ := (endsPlain_instrLine marked r).last
  unfold isLabel
  rw [hchars]
  simpa using (isPlain_iff.mp hc).2.1

/-- A listing has only lines that are one line, if its labels have. -/
theorem oneLine_of_mem_lines {labels : Labels} (h : ∀ entry ∈ labels.entries, OneLine entry.1)
    {instrs : List RawInstr} {line : String} (hline : line ∈ lines labels instrs) :
    OneLine line := by
  obtain ⟨r, _, hline⟩ := List.mem_flatMap.mp hline
  rcases List.mem_append.mp hline with hline | hline
  · obtain ⟨name, hname, rfl⟩ := List.mem_map.mp hline
    obtain ⟨entry, hentry, rfl⟩ := List.mem_map.mp hname
    exact oneLine_append.mpr ⟨h entry (List.mem_filter.mp hentry).1, by decide⟩
  · rw [List.mem_singleton.mp hline]
    exact (endsPlain_instrLine _ r).oneLine

end Listing

end Pledge
