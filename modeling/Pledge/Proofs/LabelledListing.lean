-- Listings with labels. Each instruction has a block of lines: the labels that
-- are placed at it, in the order of their names, and then its own line, which
-- is marked if anything in the code leads to it. A label is shown once or not
-- at all, and no label changes the line of an instruction.
import Pledge.Proofs.Assembly.References
import Pledge.Proofs.PlainListing

namespace Pledge

/-! ## Where instructions lead -/

/-- No instruction has both an offset and an address. -/
theorem Opcode.offset_or_address (op : Opcode) :
    .offset ∉ op.operands ∨ .address ∉ op.operands := by
  cases op <;> decide

namespace Instr

variable {i : Instr} {position : Nat}

theorem branchTarget?_eq_none (h : .offset ∉ i.opcode.operands) :
    (i.raw position).branchTarget? = none := by
  rw [← i.kind_operands] at h
  apply List.findSome?_eq_none_iff.mpr
  intro operand hmem
  cases operand with
  | offset o => exact absurd (List.mem_map_of_mem hmem) h
  | _ => rfl

theorem codeTarget?_eq_none (h : .address ∉ i.opcode.operands) :
    (i.raw position).codeTarget? = none := by
  rw [← i.kind_operands] at h
  apply List.findSome?_eq_none_iff.mpr
  intro operand hmem
  cases operand with
  | address a => exact absurd (List.mem_map_of_mem hmem) h
  | _ => rfl

end Instr

namespace Listing

open Text

/-- A branch target does not hide a code target, as no instruction has both. -/
theorem target?_raw {i : Instr} {position target : Nat} :
    target? (i.raw position) = some target ↔
      (i.raw position).branchTarget? = some target ∨
        (i.raw position).codeTarget? = some target := by
  unfold target?
  rcases i.opcode.offset_or_address with h | h
  · simp [Instr.branchTarget?_eq_none h]
  · simp [Instr.codeTarget?_eq_none h]

/-- Something in the code leads to the position, by a branch or by naming it. -/
def Targeted (instrs : List RawInstr) (position : Nat) : Prop :=
  ∃ r ∈ instrs, r.branchTarget? = some position ∨ r.codeTarget? = some position

theorem contains_target?_iff (is : List Instr) (position : Nat) :
    ((Instr.rawsFrom 0 is).filterMap target?).contains position = true ↔
      Targeted (Instr.rawsFrom 0 is) position := by
  rw [List.contains_iff_mem, List.mem_filterMap]
  refine exists_congr fun r => and_congr_right fun hr => ?_
  obtain ⟨before, i, after, _, rfl⟩ := Instr.mem_rawsFrom.mp hr
  exact target?_raw

/-! ## The labels at a place -/

section

variable {labels : Labels} {name : String} {q : Nat}

theorem mem_namesAt : name ∈ labels.namesAt q ↔ labels.get? name = some q := by
  rw [← Labels.mem_entries]
  simp [Labels.namesAt]

theorem sorted_namesAt (labels : Labels) (q : Nat) : (labels.namesAt q).Pairwise (· < ·) :=
  List.pairwise_map.mpr (List.Pairwise.filter _ labels.sorted)

theorem nodup_namesAt (labels : Labels) (q : Nat) : (labels.namesAt q).Nodup := by
  refine (sorted_namesAt labels q).imp ?_
  rintro a b hlt rfl
  exact String.lt_irrefl a hlt

theorem count_label (names : List String) :
    (names.map (· ++ ":")).count (name ++ ":") = names.count name := by
  unfold List.count
  rw [List.countP_map]
  congr
  funext other
  simp

/-- At its own place a label is shown once, and at other places it is not. -/
theorem count_linesOf (hq : labels.get? name = some q) (targets : List Nat) (r : RawInstr) :
    (linesOf labels targets r).count (name ++ ":") = if r.offset = q then 1 else 0 := by
  have hline : [instrLine (targets.contains r.offset) r].count (name ++ ":") = 0 := by
    rw [List.count_eq_zero, List.mem_singleton]
    intro heq
    have hlabel := isLabel_name name
    rw [heq, not_isLabel_instrLine] at hlabel
    cases hlabel
  have hmem : name ∈ labels.namesAt r.offset ↔ r.offset = q := by
    rw [mem_namesAt, hq]
    simp [eq_comm]
  unfold linesOf
  rw [List.count_append, hline, count_label, (nodup_namesAt labels r.offset).count]
  simp [hmem]

/-- By induction on the instructions: a label is shown as often as an instruction stands at its
place. -/
theorem count_flatMap_linesOf (hq : labels.get? name = some q) (targets : List Nat)
    (instrs : List RawInstr) :
    (instrs.flatMap (linesOf labels targets)).count (name ++ ":") =
      (instrs.map RawInstr.offset).count q := by
  induction instrs with
  | nil => rfl
  | cons r instrs ih =>
    rw [List.flatMap_cons, List.count_append, count_linesOf hq, ih, List.map_cons, List.count_cons]
    simp [Nat.add_comm]

end

/-! ## Blocks -/

/-- What a listing has for an instruction: the names of its labels, and its line, with a mark or
without. -/
structure Block where
  names : List String
  marked : Bool
  line : String

/-- The lines of a block: a line for each name, and the line of the instruction. -/
def Block.lines (b : Block) : List String := b.names.map (· ++ ":") ++ [b.line]

/-- The block of an instruction. Its names are those of the labels that are placed at the
instruction, in order. Its line is on one line, has no blank at its end, and has a mark behind the
offset if anything leads to the instruction. -/
structure Shows (labels : Labels) (instrs : List RawInstr) (r : RawInstr) (b : Block) : Prop where
  sorted : b.names.Pairwise (· < ·)
  placed : ∀ name, name ∈ b.names ↔ labels.get? name = some r.offset
  marked : b.marked = true ↔ Targeted instrs r.offset
  line : b.line = instrLine b.marked r
  mark : paddedHex 4 r.offset ++ [if b.marked then '>' else ' '] <+: b.line.toList
  oneLine : OneLine b.line
  trimmed : ∀ c ∈ b.line.toList.getLast?, isBlank c = false

/-- The block of an instruction, where the positions that anything leads to are known. -/
def blockOf (labels : Labels) (targets : List Nat) (r : RawInstr) : Block where
  names := labels.namesAt r.offset
  marked := targets.contains r.offset
  line := instrLine (targets.contains r.offset) r

theorem not_isBlank_getLast? {cs : List Char} (h : EndsPlain cs) :
    ∀ c ∈ cs.getLast?, isBlank c = false := by
  obtain ⟨front, last, rfl, hlast⟩ := h.last
  simpa using (isPlain_iff.mp hlast).1

theorem shows_blockOf (labels : Labels) (is : List Instr) (r : RawInstr) :
    Shows labels (Instr.rawsFrom 0 is) r
      (blockOf labels ((Instr.rawsFrom 0 is).filterMap target?) r) where
  sorted := sorted_namesAt labels r.offset
  placed _ := mem_namesAt
  marked := contains_target?_iff is r.offset
  line := rfl
  mark := by
    show _ <+: (instrLine _ r).toList
    rw [toList_instrLine, lineFront]
    simp [blockOf]
  oneLine := (endsPlain_instrLine _ r).oneLine
  trimmed := not_isBlank_getLast? (endsPlain_instrLine _ r)

theorem flatMap_lines_blockOf (labels : Labels) (targets : List Nat) (instrs : List RawInstr) :
    (instrs.map (blockOf labels targets)).flatMap Block.lines =
      instrs.flatMap (linesOf labels targets) := by
  rw [List.flatMap_map]
  rfl

/-! ## The law of labels -/

theorem withLabels_of_decodeAll {code : Bytes} {instrs : List RawInstr}
    (h : Instr.decodeAll code = .ok instrs) (labels : Labels) :
    withLabels code labels = .ok (unlines (lines labels instrs)) :=
  Except.bind_eq_ok.mpr ⟨instrs, h, rfl⟩

theorem withLabels_eq_error {code : Bytes} {labels : Labels} {e : ProgramError} :
    withLabels code labels = .error e ↔ Instr.decodeAll code = .error e := by
  refine Except.bind_eq_error.trans ⟨?_, .inl⟩
  rintro (h | ⟨instrs, _, h⟩)
  · exact h
  · cases h

/-- Code that does not decode has no listing, and the error is that of decoding. Otherwise the
listing is a block for each instruction, in order. The lines of the instructions are those of the
listing without labels, and a label is shown once if an instruction stands at its place, and not at
all otherwise. -/
theorem a_listing_is_a_block_for_each_instruction (code : Bytes) (labels : Labels) :
    (∀ e, withLabels code labels = .error e ↔ Instr.decodeAll code = .error e) ∧
    ∀ instrs, Instr.decodeAll code = .ok instrs →
      ∃ blocks : List Block, List.Forall₂ (Shows labels instrs) instrs blocks ∧
        withLabels code labels = .ok (unlines (blocks.flatMap Block.lines)) ∧
        plain code = .ok (unlines (blocks.map Block.line)) ∧
        ∀ name q, labels.get? name = some q →
          (blocks.flatMap Block.lines).count (name ++ ":") =
            if q ∈ instrs.map RawInstr.offset then 1 else 0 := by
  refine ⟨fun e => withLabels_eq_error, ?_⟩
  intro instrs hdecode
  obtain ⟨is, rfl, rfl⟩ := Instr.exists_of_decodeAll hdecode
  refine ⟨(Instr.rawsFrom 0 is).map (blockOf labels ((Instr.rawsFrom 0 is).filterMap target?)),
    ?_, ?_, ?_, ?_⟩
  · exact List.forall₂_map_right_iff.mpr
      (List.forall₂_same.mpr fun r _ => shows_blockOf labels is r)
  · rw [withLabels_of_decodeAll hdecode, flatMap_lines_blockOf]
    rfl
  · rw [plain, withLabels_of_decodeAll hdecode, lines_plain, List.map_map]
    rfl
  · intro name q hq
    have hoffsets : ((Instr.rawsFrom 0 is).map RawInstr.offset).Nodup :=
      List.pairwise_map.mpr ((Instr.pairwise_rawsFrom 0 is).imp Nat.ne_of_lt)
    rw [flatMap_lines_blockOf, count_flatMap_linesOf hq, hoffsets.count]

/-- A loop that is left by a branch. -/
def loopCode : List Instr := [.setRestart, .branchZero 6 7, .finish, .jump 0]

/-- Two labels where the loop begins, one behind its end, and one inside of an instruction. -/
def loopLabels : Labels where
  entries := [("again", 0), ("inside", 3), ("left", 8), ("loop", 0)]

/-- Both labels at the beginning are shown, and the one inside of an instruction is not. -/
theorem a_listing_is_a_block_for_each_instruction_of_a_loop :
    Instr.decodeAll (Instr.encodeAll loopCode) = .ok (Instr.rawsFrom 0 loopCode) ∧
    ∃ blocks : List Block,
      List.Forall₂ (Shows loopLabels (Instr.rawsFrom 0 loopCode)) (Instr.rawsFrom 0 loopCode)
        blocks ∧
      withLabels (Instr.encodeAll loopCode) loopLabels =
        .ok (unlines (blocks.flatMap Block.lines)) ∧
      (blocks.flatMap Block.lines).count "again:" = 1 ∧
      (blocks.flatMap Block.lines).count "loop:" = 1 ∧
      (blocks.flatMap Block.lines).count "inside:" = 0 := by
  have hdecode := Instr.decodeAll_encodeAll loopCode
  obtain ⟨_, hlisting⟩ :=
    a_listing_is_a_block_for_each_instruction (Instr.encodeAll loopCode) loopLabels
  obtain ⟨blocks, hblocks, htext, _, hcount⟩ := hlisting _ hdecode
  refine ⟨hdecode, blocks, hblocks, htext, ?_, ?_, ?_⟩
  · exact (hcount "again" 0 rfl).trans (if_pos (by decide))
  · exact (hcount "loop" 0 rfl).trans (if_pos (by decide))
  · exact (hcount "inside" 3 rfl).trans (if_neg (by decide))

end Listing

end Pledge
