-- Programs that differ in their slots only. They are assembled alike: their
-- labels land at the same places, their branches and jumps lead to the same
-- places, and their codes differ in no byte outside of the operands that may
-- differ.
import Pledge.Proofs.Assembly.Programs

namespace Pledge

/-- Where two lists are related, so are two others that follow from them. -/
theorem forall₂_of_forall₂ {α α' β β' : Type} {R : α → α' → Prop} {P : α → β → Prop}
    {P' : α' → β' → Prop} {Q : β → β' → Prop} {as : List α} {as' : List α'} {bs : List β}
    {bs' : List β'} (h : List.Forall₂ R as as') (hb : List.Forall₂ P as bs)
    (hb' : List.Forall₂ P' as' bs') (hQ : ∀ a a' b b', R a a' → P a b → P' a' b' → Q b b') :
    List.Forall₂ Q bs bs' := by
  induction h generalizing bs bs' with
  | nil =>
    cases hb
    cases hb'
    exact .nil
  | cons hr _ ih =>
    cases hb with
    | cons hp hps =>
      cases hb' with
      | cons hp' hps' => exact .cons (hQ _ _ _ _ hr hp hp') (ih hps hps')

theorem filterMap_eq_of_forall₂ {α β : Type} {R : α → α → Prop} {f : α → Option β} {as as' : List α}
    (h : List.Forall₂ R as as') (hf : ∀ a a', R a a' → f a = f a') :
    as.filterMap f = as'.filterMap f := by
  induction h with
  | nil => rfl
  | cons hr _ ih => rw [List.filterMap_cons, List.filterMap_cons, hf _ _ hr, ih]

theorem map_filter_eq_of_forall₂ {α β : Type} {R : α → α → Prop} {p : α → Bool} {f : α → β}
    {as as' : List α} (h : List.Forall₂ R as as') (hp : ∀ a a', R a a' → p a = p a')
    (hf : ∀ a a', R a a' → f a = f a') : (as.filter p).map f = (as'.filter p).map f := by
  induction h with
  | nil => rfl
  | cons hr _ ih =>
    rw [List.filter_cons, List.filter_cons, hp _ _ hr]
    split
    · rw [List.map_cons, List.map_cons, hf _ _ hr, ih]
    · exact ih

/-! ## Operands and instructions -/

section

variable {O A O' A' : Type}

/-- Two operands that are the same, or that are both slots. Words may differ on demand. -/
inductive OperandWith.Alike (words : Prop) : OperandWith O A → OperandWith O A → Prop
  | same (o : OperandWith O A) : Alike words o o
  | slots (n n' : UInt32) : Alike words (.slot n) (.slot n')
  | words (h : words) (v v' : Word) : Alike words (.value v) (.value v')

namespace OperandWith.Alike

variable {words words' : Prop} {o o' : OperandWith O A}

theorem imp (h : Alike words o o') (hwords : words → words') : Alike words' o o' := by
  cases h with
  | same o => exact .same o
  | slots n n' => exact .slots n n'
  | words h v v' => exact .words (hwords h) v v'

theorem kind_eq (h : Alike words o o') : o'.kind = o.kind := by
  cases h <;> rfl

/-- What is filled in depends on the offset and the address only. -/
theorem of_lift {R : O → O' → Prop} {S : A → A' → Prop} {p p' : OperandWith O' A'}
    (h : Alike words o o') (hp : Lift R S o p) (hp' : Lift R S o' p')
    (hR : ∀ o d d', R o d → R o d' → d = d') (hS : ∀ a b b', S a b → S a b' → b = b') :
    Alike words p p' := by
  cases h with
  | same o =>
    cases hp with
    | slot n | value v | function f =>
      cases hp'
      exact .same _
    | offset hd =>
      cases hp' with
      | offset hd' =>
        rw [hR _ _ _ hd hd']
        exact .same _
    | address hb =>
      cases hp' with
      | address hb' =>
        rw [hS _ _ _ hb hb']
        exact .same _
  | slots n n' =>
    cases hp
    cases hp'
    exact .slots n n'
  | words h v v' =>
    cases hp
    cases hp'
    exact .words h v v'

/-- What is collected from operands is the same if slots and words do not matter to it. -/
theorem filterMap_eq {α : Type} {f : OperandWith O A → Option α} {os os' : List (OperandWith O A)}
    (h : List.Forall₂ (Alike words) os os') (hslot : ∀ n n', f (.slot n) = f (.slot n'))
    (hvalue : ∀ v v', f (.value v) = f (.value v')) : os.filterMap f = os'.filterMap f := by
  refine filterMap_eq_of_forall₂ h ?_
  intro o o' ho
  cases ho with
  | same o => rfl
  | slots n n' => exact hslot n n'
  | words _ v v' => exact hvalue v v'

end OperandWith.Alike

/-- Operands of a call that fills the second register from four slots. The word among them is the
number of the first slot. -/
def LoadsSecond (os : List (OperandWith O A)) : Prop := .function (.loadRegister .b) ∈ os

/-- Two instructions that differ in their slots only. -/
structure InstrWith.Alike (i i' : InstrWith O A) : Prop where
  opcode : i'.opcode = i.opcode
  operands : List.Forall₂ (OperandWith.Alike (LoadsSecond i.operands)) i.operands i'.operands

theorem InstrWith.Alike.refl (i : InstrWith O A) : Alike i i :=
  ⟨rfl, List.forall₂_same.mpr fun o _ => .same o⟩

end

theorem Ref.IsDistance.unique {labels : Labels} {position : Nat} {ref : Ref Int8} {d d' : Int8}
    (h : IsDistance labels position ref d) (h' : IsDistance labels position ref d') : d = d' := by
  cases ref with
  | exact o => exact h.trans h'.symm
  | label name =>
    obtain ⟨target, htarget, hd⟩ := h
    obtain ⟨target', htarget', hd'⟩ := h'
    rw [htarget] at htarget'
    cases htarget'
    exact Int8.toInt_inj.mp (hd.trans hd'.symm)

theorem Ref.IsAddress.unique {labels : Labels} {ref : Ref UInt32} {b b' : UInt32}
    (h : IsAddress labels ref b) (h' : IsAddress labels ref b') : b = b' := by
  cases ref with
  | exact a => exact h.trans h'.symm
  | label name =>
    have hb : some b.toNat = some b'.toNat := h.symm.trans h'
    exact UInt32.toNat_inj.mp (Option.some.inj hb)

/-- Drafts that are alike become instructions that are alike. -/
theorem Draft.Becomes.alike {d d' : Draft} {labels : Labels} {position : Nat} {i i' : Instr}
    (h : InstrWith.Alike d d') (hi : d.Becomes labels position i)
    (hi' : d'.Becomes labels position i') : InstrWith.Alike i i' where
  opcode := by rw [hi'.opcode, h.opcode, hi.opcode]
  operands := by
    have hloads : LoadsSecond d.operands → LoadsSecond i.operands := by
      intro hmem
      obtain ⟨o, ho, hlift⟩ := exists_mem_of_forall₂ hi.operands.flip hmem
      cases hlift
      exact ho
    refine forall₂_of_forall₂ h.operands hi.operands hi'.operands ?_
    intro o o' p p' ho hp hp'
    exact (ho.of_lift hp hp' (fun _ _ _ => Ref.IsDistance.unique)
      fun _ _ _ => Ref.IsAddress.unique).imp hloads

/-! ## Actions -/

namespace Action

/-- Two actions that differ in the slots of an instruction only. -/
inductive Alike : Action → Action → Prop
  | same (a : Action) : Alike a a
  | emit {d d' : Draft} (h : InstrWith.Alike d d') : Alike (.emit d) (.emit d')

namespace Alike

variable {a a' : Action}

theorem size_eq (h : Alike a a') : a.size = a'.size := by
  cases h with
  | same a => rfl
  | emit h => exact congrArg Opcode.size h.opcode.symm

theorem placement_eq (h : Alike a a') (position : Nat) :
    a.placement position = a'.placement position := by
  cases h <;> rfl

theorem distancesTo_eq (h : Alike a a') : a.distancesTo = a'.distancesTo := by
  cases h with
  | same a => rfl
  | emit h => exact OperandWith.Alike.filterMap_eq h.operands (fun _ _ => rfl) fun _ _ => rfl

theorem addressesOf_eq (h : Alike a a') : a.addressesOf = a'.addressesOf := by
  cases h with
  | same a => rfl
  | emit h => exact OperandWith.Alike.filterMap_eq h.operands (fun _ _ => rfl) fun _ _ => rfl

end Alike

variable {actions actions' : List Action}

/-- Actions that are alike give alike from the same positions. -/
theorem forall₂_along {α : Type} {R : α → α → Prop} {give : Nat → Action → List α}
    (h : List.Forall₂ Alike actions actions')
    (hgive : ∀ position a a', Alike a a' → List.Forall₂ R (give position a) (give position a'))
    (position : Nat) :
    List.Forall₂ R (along give position actions) (along give position actions') := by
  induction h generalizing position with
  | nil => exact .nil
  | cons ha _ ih =>
    rw [along, along, ← ha.size_eq]
    exact List.rel_append (hgive position _ _ ha) (ih _)

theorem along_eq {α : Type} {give : Nat → Action → List α} (h : List.Forall₂ Alike actions actions')
    (hgive : ∀ position a a', Alike a a' → give position a = give position a') (position : Nat) :
    along give position actions = along give position actions' := by
  rw [← List.forall₂_eq_eq_eq]
  refine forall₂_along h ?_ position
  intro position a a' ha
  rw [List.forall₂_eq_eq_eq]
  exact hgive position a a' ha

theorem placements_eq (h : List.Forall₂ Alike actions actions') :
    placements actions = placements actions' :=
  along_eq h (fun position _ _ ha => ha.placement_eq position) 0

theorem wellPlaced_of_alike (h : List.Forall₂ Alike actions actions') (hwell : WellPlaced actions) :
    WellPlaced actions' := by
  have hdistances : distances actions = distances actions' :=
    along_eq h (fun position a a' ha => by rw [ha.distancesTo_eq]) 0
  have haddresses : addresses actions = addresses actions' :=
    along_eq h (fun position a a' ha => ha.addressesOf_eq) 0
  obtain ⟨once, placed, near, low⟩ := hwell
  rw [placements_eq h] at once placed near low
  rw [hdistances] at placed near
  rw [haddresses] at placed low
  exact ⟨once, placed, near, low⟩

theorem writings_alike (h : List.Forall₂ Alike actions actions') :
    List.Forall₂ (fun x x' => x.1 = x'.1 ∧ InstrWith.Alike x.2 x'.2) (writings actions)
      (writings actions') := by
  refine forall₂_along h ?_ 0
  intro position a a' ha
  cases ha with
  | same a => exact List.forall₂_same.mpr fun x _ => ⟨rfl, .refl x.2⟩
  | emit h => exact .cons ⟨rfl, h⟩ .nil

end Action

/-! ## Programs -/

namespace Source

open Pledge.Action Emitter

variable {actions actions' : List Action} {out : Assembled}

theorem labels_of_assemble (h : (plain actions).assemble = .ok out) :
    out.labels = Labels.empty.insertAll (placements actions) := by
  obtain ⟨first, second, _, hemit, _, _, rfl⟩ := assemble_eq_ok.mp h
  exact (follows_of_run hemit).labels

/-- Programs that differ in their slots only are assembled to the same labels, and to instructions
that differ in their slots only. -/
theorem assemble_alike (h : List.Forall₂ Action.Alike actions actions')
    (hout : (plain actions).assemble = .ok out) :
    ∃ out' is is', (plain actions').assemble = .ok out' ∧ out'.labels = out.labels ∧
      out.code = Instr.encodeAll is ∧ out'.code = Instr.encodeAll is' ∧
      List.Forall₂ InstrWith.Alike is is' := by
  have hwell : WellPlaced actions := exists_assemble_iff.mp ⟨out, hout⟩
  obtain ⟨out', hout'⟩ := exists_assemble_iff.mpr (wellPlaced_of_alike h hwell)
  have hlabels : out'.labels = out.labels := by
    rw [labels_of_assemble hout, labels_of_assemble hout', placements_eq h]
  obtain ⟨_, is, his, hcode⟩ := written_of_assemble hout
  obtain ⟨_, is', his', hcode'⟩ := written_of_assemble hout'
  rw [hlabels] at his'
  refine ⟨out', is, is', hout', hlabels, hcode, hcode', ?_⟩
  refine forall₂_of_forall₂ (writings_alike h) his his' ?_
  rintro ⟨position, d⟩ ⟨_, d'⟩ i i' ⟨rfl, hd⟩ hi hi'
  exact hi.alike hd hi'

end Source

/-! ## Code -/

namespace RawInstr

/-- Two instructions at one place that differ in their slots only. -/
structure Alike (r r' : RawInstr) : Prop where
  offset : r'.offset = r.offset
  opcode : r'.opcode = r.opcode
  operands : List.Forall₂ (OperandWith.Alike (LoadsSecond r.operands)) r.operands r'.operands

/-- The operand is a slot, or it stands for one. -/
def MayDiffer (r : RawInstr) (o : Operand) : Prop :=
  o.kind = .slot ∨ o.kind = .value ∧ LoadsSecond r.operands

/-- A byte of the operand is at the position. -/
def HoldsAt (r : RawInstr) (o : Operand) (position : Nat) : Prop :=
  ∃ before after, r.operands = before ++ o :: after ∧
    r.offset + 1 + (before.flatMap Operand.bytes).length ≤ position ∧
    position < r.offset + 1 + (before.flatMap Operand.bytes).length + o.bytes.length

variable {r r' : RawInstr}

theorem Alike.branchTarget?_eq (h : r.Alike r') : r'.branchTarget? = r.branchTarget? := by
  unfold branchTarget?
  rw [h.offset, ← List.head?_filterMap, ← List.head?_filterMap]
  rw [OperandWith.Alike.filterMap_eq h.operands (fun _ _ => rfl) fun _ _ => rfl]

theorem Alike.codeTarget?_eq (h : r.Alike r') : r'.codeTarget? = r.codeTarget? := by
  unfold codeTarget?
  rw [← List.head?_filterMap, ← List.head?_filterMap]
  rw [OperandWith.Alike.filterMap_eq h.operands (fun _ _ => rfl) fun _ _ => rfl]

end RawInstr

namespace Instr

variable {is is' : List Instr}

theorem rawsFrom_alike (h : List.Forall₂ InstrWith.Alike is is') (offset : Nat) :
    List.Forall₂ RawInstr.Alike (rawsFrom offset is) (rawsFrom offset is') := by
  induction h generalizing offset with
  | nil => exact .nil
  | @cons i i' _ _ hi _ ih =>
    have hsize : i'.size = i.size := congrArg Opcode.size hi.opcode
    rw [rawsFrom, rawsFrom, hsize]
    exact .cons ⟨rfl, hi.opcode, hi.operands⟩ (ih _)

theorem length_encodeAll_eq (h : List.Forall₂ InstrWith.Alike is is') :
    (encodeAll is').length = (encodeAll is).length := by
  induction h with
  | nil => rfl
  | @cons i i' _ _ hi _ ih =>
    have hsize : i'.size = i.size := congrArg Opcode.size hi.opcode
    rw [encodeAll_cons, encodeAll_cons, List.length_append, List.length_append, length_toBytes,
      length_toBytes, hsize, ih]

/-- Where the bytes of two rows of operands differ, there is an operand that may differ. -/
theorem exists_of_operands_ne {words : Prop} {os os' : List Operand}
    (h : List.Forall₂ (OperandWith.Alike words) os os') {k : Nat}
    (hne : (os.flatMap Operand.bytes)[k]? ≠ (os'.flatMap Operand.bytes)[k]?) :
    ∃ before o after, os = before ++ o :: after ∧ (o.kind = .slot ∨ o.kind = .value ∧ words) ∧
      (before.flatMap Operand.bytes).length ≤ k ∧
      k < (before.flatMap Operand.bytes).length + o.bytes.length := by
  induction h generalizing k with
  | nil => exact absurd rfl hne
  | @cons o o' os os' ho _ ih =>
    have hlen : o'.bytes.length = o.bytes.length := by
      rw [o.length_bytes, o'.length_bytes, ho.kind_eq]
    rw [List.flatMap_cons, List.flatMap_cons] at hne
    by_cases hk : k < o.bytes.length
    · rw [List.getElem?_append_left hk, List.getElem?_append_left (hlen ▸ hk)] at hne
      refine ⟨[], o, os, rfl, ?_, Nat.zero_le k, by simpa using hk⟩
      cases ho with
      | same o => exact absurd rfl hne
      | slots n n' => exact .inl rfl
      | words h v v' => exact .inr ⟨rfl, h⟩
    · rw [List.getElem?_append_right (by omega), List.getElem?_append_right (by omega), hlen] at hne
      obtain ⟨before, p, after, rfl, hp, hle, hlt⟩ := ih hne
      refine ⟨o :: before, p, after, rfl, hp, ?_, ?_⟩
      · rw [List.flatMap_cons, List.length_append]
        omega
      · rw [List.flatMap_cons, List.length_append]
        omega

/-- Where the codes of two rows of instructions differ, there is an operand that may differ. By
induction on the rows: opcodes are the same, so a difference is never in the first byte. -/
theorem exists_of_encodeAll_ne (h : List.Forall₂ InstrWith.Alike is is') (offset : Nat) {k : Nat}
    (hne : (encodeAll is)[k]? ≠ (encodeAll is')[k]?) :
    ∃ r ∈ rawsFrom offset is, ∃ o, r.HoldsAt o (offset + k) ∧ r.MayDiffer o := by
  induction h generalizing offset k with
  | nil => exact absurd rfl hne
  | @cons i i' is is' hi _ ih =>
    have hsize : i'.size = i.size := congrArg Opcode.size hi.opcode
    have hlen := length_toBytes i
    have hlen' := length_toBytes i'
    rw [encodeAll_cons, encodeAll_cons] at hne
    by_cases hk : k < i.size
    · rw [List.getElem?_append_left (by omega), List.getElem?_append_left (by omega), toBytes_eq,
        toBytes_eq, hi.opcode] at hne
      cases k with
      | zero => exact absurd rfl hne
      | succ k =>
        obtain ⟨before, o, after, hsplit, ho, hle, hlt⟩ := exists_of_operands_ne hi.operands hne
        refine ⟨i.raw offset, List.mem_cons_self, o, ⟨before, after, hsplit, ?_, ?_⟩, ho⟩
        · show offset + 1 + _ ≤ _
          omega
        · show _ < offset + 1 + _ + _
          omega
    · rw [List.getElem?_append_right (by omega), List.getElem?_append_right (by omega), hlen, hlen',
        hsize] at hne
      obtain ⟨r, hr, o, hholds, ho⟩ := ih (offset + i.size) hne
      rw [show offset + i.size + (k - i.size) = offset + k by omega] at hholds
      exact ⟨r, List.mem_cons_of_mem _ hr, o, hholds, ho⟩

end Instr

end Pledge
