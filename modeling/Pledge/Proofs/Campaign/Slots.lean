-- The script over other slots. Which slots its variables have decides nothing
-- but the operands that name them: the script is always assembled, to code of
-- one shape.
import Pledge.Proofs.Assembly.Alike
import Pledge.Proofs.Campaign.Program

namespace Pledge.Campaign

def actions (l : Layout) : List Action := (script l).map Statement.action

theorem plain_actions (l : Layout) : Source.plain (actions l) = script l := rfl

/-- Each action is the same over all layouts, or names a slot where the others name one. -/
theorem actions_alike (l l' : Layout) : List.Forall₂ Action.Alike (actions l) (actions l') := by
  -- The constructors follow the script: one per action, and one per operand of it.
  repeat' constructor

/-! ## Shape -/

/-- The shape of the code of a campaign. -/
structure Shaped (out : Assembled) (raws : List RawInstr) : Prop where
  length : out.code.length = 167
  labels : out.labels.entries =
    [(checkKind, 128), (refundDonors, 88), (refundTx, 110), (txLoop, 89)]
  decoded : Instr.decodeAll out.code = .ok raws
  count : raws.length = 25
  /-- Labels lie where instructions begin. -/
  starts : ∀ entry ∈ out.labels.entries, entry.2 ∈ raws.map RawInstr.offset
  branches : (raws.filter (·.opcode.isBranch)).map RawInstr.branchTarget? =
    [refundDonors, refundTx, checkKind, txLoop].map out.labels.get?
  jumps : (raws.filter (·.opcode == .jmpAdr)).map RawInstr.codeTarget? = [out.labels.get? txLoop]
  /-- Nothing but the jump holds an address. -/
  addresses : raws.filterMap RawInstr.codeTarget? = (out.labels.get? txLoop).toList

theorem shaped_code : Shaped ⟨code, labels⟩ instrs where
  length := length_code
  labels := rfl
  decoded := decodeAll_code
  count := rfl
  starts := by decide +kernel
  branches := by decide +kernel
  jumps := by decide +kernel
  addresses := by decide +kernel

/-- Code that differs in its slots only has the same shape. -/
theorem Shaped.of_alike {out out' : Assembled} {is is' : List Instr}
    (h : Shaped out (Instr.rawsFrom 0 is)) (halike : List.Forall₂ InstrWith.Alike is is')
    (hlabels : out'.labels = out.labels) (hcode : out.code = Instr.encodeAll is)
    (hcode' : out'.code = Instr.encodeAll is') : Shaped out' (Instr.rawsFrom 0 is') := by
  have hraws := Instr.rawsFrom_alike halike 0
  have hopcode : ∀ (p : Opcode → Bool) (r r' : RawInstr), r.Alike r' → p r.opcode = p r'.opcode :=
    fun p r r' hr => congrArg p hr.opcode.symm
  have hoffsets : (Instr.rawsFrom 0 is).map RawInstr.offset =
      (Instr.rawsFrom 0 is').map RawInstr.offset := by
    rw [← List.forall₂_eq_eq_eq, List.forall₂_map_left_iff, List.forall₂_map_right_iff]
    exact hraws.imp fun _ _ hr => hr.offset.symm
  obtain ⟨length, labels, decoded, count, starts, branches, jumps, addresses⟩ := h
  rw [← hlabels] at labels starts branches jumps addresses
  refine ⟨?_, labels, ?_, ?_, ?_, ?_, ?_, ?_⟩
  · rw [hcode', Instr.length_encodeAll_eq halike, ← hcode, length]
  · rw [hcode', Instr.decodeAll_encodeAll]
  · rw [← hraws.length_eq, count]
  · rw [← hoffsets]
    exact starts
  · rw [← branches]
    exact (map_filter_eq_of_forall₂ hraws (hopcode Opcode.isBranch)
      fun _ _ hr => hr.branchTarget?_eq.symm).symm
  · rw [← jumps]
    exact (map_filter_eq_of_forall₂ hraws (hopcode (· == .jmpAdr))
      fun _ _ hr => hr.codeTarget?_eq.symm).symm
  · rw [← addresses]
    exact (filterMap_eq_of_forall₂ hraws fun _ _ hr => hr.codeTarget?_eq.symm).symm

/-- The script is assembled over every layout. -/
theorem exists_shaped (l : Layout) :
    ∃ out raws, (script l).assemble = .ok out ∧ Shaped out raws := by
  have hscript := assemble_script
  rw [← plain_actions] at hscript ⊢
  obtain ⟨out, is, is', hout, hlabels, hcode, hcode', halike⟩ :=
    Source.assemble_alike (actions_alike Layout.standard l) hscript
  have hinstrs : instrs = Instr.rawsFrom 0 is := Instr.eq_rawsFrom hcode decodeAll_code
  exact ⟨out, Instr.rawsFrom 0 is', hout,
    (hinstrs ▸ shaped_code).of_alike halike hlabels hcode hcode'⟩

/-- Over every layout the script is assembled to code of one shape. Over two layouts the codes
differ in no byte outside of the slots and of the number of the slot where the awardee begins. -/
theorem layouts_decide_nothing_but_slots (l : Layout) :
    ∃ out raws, (script l).assemble = .ok out ∧ Shaped out raws ∧
      ∀ l', ∃ out', (script l').assemble = .ok out' ∧ out'.code.length = out.code.length ∧
        ∀ position, out.code[position]? ≠ out'.code[position]? →
          ∃ r ∈ raws, ∃ o, r.HoldsAt o position ∧ r.MayDiffer o := by
  obtain ⟨out, raws, hout, hshaped⟩ := exists_shaped l
  refine ⟨out, raws, hout, hshaped, ?_⟩
  intro l'
  rw [← plain_actions] at hout ⊢
  obtain ⟨out', is, is', hout', _, hcode, hcode', halike⟩ :=
    Source.assemble_alike (actions_alike l l') hout
  have hraws : raws = Instr.rawsFrom 0 is := Instr.eq_rawsFrom hcode hshaped.decoded
  refine ⟨out', hout', ?_, ?_⟩
  · rw [hcode', hcode, Instr.length_encodeAll_eq halike]
  · intro position hne
    rw [hcode, hcode'] at hne
    obtain ⟨r, hr, o, hholds, ho⟩ := Instr.exists_of_encodeAll_ne halike 0 hne
    rw [Nat.zero_add] at hholds
    exact ⟨r, hraws ▸ hr, o, hholds, ho⟩

end Pledge.Campaign
