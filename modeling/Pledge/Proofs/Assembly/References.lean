-- References to labels: what the table of labels knows, and what becomes of
-- an instruction when its labels are filled in.
import Mathlib.Data.List.Forall2
import Pledge.Assembly.Source
import Pledge.Proofs.Encoding

namespace Pledge

/-! ## The table -/

namespace Labels

variable {t : Labels} {name label : String} {q : Nat}

theorem lookup_cons (entries : List (String × Nat)) :
    ((label, q) :: entries).lookup name = if name = label then some q else entries.lookup name := by
  by_cases h : name = label
  · simp [h]
  · simp [List.lookup_cons, beq_false_of_ne h, h]

theorem lookup_insertEntry (entries : List (String × Nat)) :
    (insertEntry label q entries).lookup name =
      if name = label then some q else entries.lookup name := by
  induction entries with
  | nil => exact lookup_cons []
  | cons entry entries ih =>
    obtain ⟨first, n⟩ := entry
    unfold insertEntry
    by_cases hlt : label < first
    · rw [if_pos hlt, lookup_cons]
    · rw [if_neg hlt]
      by_cases heq : label = first
      · subst heq
        rw [if_pos rfl, lookup_cons, lookup_cons]
        by_cases hname : name = label
        · rw [if_pos hname, if_pos hname]
        · rw [if_neg hname, if_neg hname, if_neg hname]
      · rw [if_neg heq, lookup_cons, lookup_cons, ih]
        by_cases hname : name = label
        · rw [if_pos hname, if_pos hname, if_neg (hname ▸ heq)]
        · rw [if_neg hname, if_neg hname]

/-- A new entry hides what stood under its name, and nothing else. -/
theorem get?_insert (t : Labels) (name label : String) (q : Nat) :
    (t.insert label q).get? name = if name = label then some q else t.get? name :=
  lookup_insertEntry t.entries

/-- The entries are what the table knows. -/
theorem mem_entries : (name, q) ∈ t.entries ↔ t.get? name = some q := by
  obtain ⟨entries, h⟩ := t
  show (name, q) ∈ entries ↔ entries.lookup name = some q
  induction entries with
  | nil => simp
  | cons head entries ih =>
    obtain ⟨first, n⟩ := head
    obtain ⟨hfirst, hrest⟩ := List.pairwise_cons.mp h
    rw [lookup_cons, List.mem_cons]
    by_cases hname : name = first
    · subst hname
      have hnot : (name, q) ∉ entries := fun hmem => String.lt_irrefl name (hfirst (name, q) hmem)
      simp [hnot, eq_comm]
    · rw [if_neg hname, ih hrest]
      simp [hname]

/-- The names of the entries are those that are found. -/
theorem contains_iff : t.contains name = true ↔ ∃ q, (name, q) ∈ t.entries := by
  simp only [mem_entries]
  exact Option.isSome_iff_exists

theorem contains_of_get? (h : t.get? name = some q) : t.contains name = true := by
  rw [contains, h]
  rfl

/-! ### Many labels -/

/-- Puts labels into the table, one after the other. -/
def insertAll (t : Labels) (entries : List (String × Nat)) : Labels :=
  entries.foldl (fun t entry => t.insert entry.1 entry.2) t

theorem insertAll_append (t : Labels) (entries more : List (String × Nat)) :
    t.insertAll (entries ++ more) = (t.insertAll entries).insertAll more := List.foldl_append

/-- Labels that are all different and not yet in the table. -/
structure Fresh (t : Labels) (entries : List (String × Nat)) : Prop where
  once : (entries.map Prod.fst).Nodup
  new : ∀ name q, (name, q) ∈ entries → t.get? name = none

/-- Fresh labels can be put in one after the other. -/
theorem fresh_cons {entries : List (String × Nat)} :
    t.Fresh ((label, q) :: entries) ↔ t.get? label = none ∧ (t.insert label q).Fresh entries := by
  constructor
  · rintro ⟨honce, hnew⟩
    obtain ⟨hlabel, honce⟩ := List.nodup_cons.mp honce
    refine ⟨hnew label q List.mem_cons_self, honce, ?_⟩
    intro name n hmem
    have hne : name ≠ label := by
      rintro rfl
      exact hlabel (List.mem_map.mpr ⟨(name, n), hmem, rfl⟩)
    rw [get?_insert, if_neg hne]
    exact hnew name n (List.mem_cons_of_mem _ hmem)
  · rintro ⟨hlabel, honce, hnew⟩
    have hne : ∀ name n, (name, n) ∈ entries → name ≠ label := by
      rintro name n hmem rfl
      have hnone := hnew name n hmem
      rw [get?_insert, if_pos rfl] at hnone
      cases hnone
    refine ⟨List.nodup_cons.mpr ⟨?_, honce⟩, ?_⟩
    · intro hmem
      obtain ⟨⟨name, n⟩, hentry, hname⟩ := List.mem_map.mp hmem
      exact hne name n hentry hname
    · intro name n hmem
      rcases List.mem_cons.mp hmem with heq | hmem
      · cases heq
        exact hlabel
      · have hnone := hnew name n hmem
        rw [get?_insert, if_neg (hne name n hmem)] at hnone
        exact hnone

/-- Fresh labels are found where they were put, and the others where they were. -/
theorem Fresh.get?_insertAll {entries : List (String × Nat)} (h : t.Fresh entries) :
    (t.insertAll entries).get? name = some q ↔ t.get? name = some q ∨ (name, q) ∈ entries := by
  induction entries generalizing t with
  | nil => simp [insertAll]
  | cons entry entries ih =>
    obtain ⟨label, n⟩ := entry
    obtain ⟨hlabel, hrest⟩ := fresh_cons.mp h
    show ((t.insert label n).insertAll entries).get? name = some q ↔ _
    rw [ih hrest, get?_insert, List.mem_cons]
    by_cases hname : name = label
    · subst hname
      simp [hlabel, eq_comm]
    · simp [hname]

end Labels

/-! ## Filling in -/

theorem exists_mem_of_forall₂ {α β : Type} {R : α → β → Prop} {as : List α} {bs : List β} {b : β}
    (h : List.Forall₂ R as bs) (hb : b ∈ bs) : ∃ a ∈ as, R a b := by
  induction h with
  | nil => cases hb
  | cons hr _ ih =>
    rcases List.mem_cons.mp hb with rfl | hb
    · exact ⟨_, List.mem_cons_self, hr⟩
    · obtain ⟨a, ha, hr'⟩ := ih hb
      exact ⟨a, List.mem_cons_of_mem _ ha, hr'⟩

variable {O A O' A' : Type}

/-- Two operands that differ at most in an offset or an address, and there are related. -/
inductive OperandWith.Lift (R : O → O' → Prop) (S : A → A' → Prop) :
    OperandWith O A → OperandWith O' A' → Prop
  | slot (n : UInt32) : Lift R S (.slot n) (.slot n)
  | value (v : Word) : Lift R S (.value v) (.value v)
  | function (f : Function) : Lift R S (.function f) (.function f)
  | offset {o : O} {o' : O'} : R o o' → Lift R S (.offset o) (.offset o')
  | address {a : A} {a' : A'} : S a a' → Lift R S (.address a) (.address a')

namespace InstrWith

/-- Two instructions that differ at most in an offset or an address, and there are related. -/
structure Lift (R : O → O' → Prop) (S : A → A' → Prop) (i : InstrWith O A) (j : InstrWith O' A') :
    Prop where
  opcode : j.opcode = i.opcode
  operands : List.Forall₂ (OperandWith.Lift R S) i.operands j.operands

theorem Lift.imp {R R' : O → O' → Prop} {S S' : A → A' → Prop} {i : InstrWith O A}
    {j : InstrWith O' A'} (h : Lift R S i j) (hR : ∀ o o', R o o' → R' o o')
    (hS : ∀ a a', S a a' → S' a a') : Lift R' S' i j := by
  refine ⟨h.opcode, h.operands.imp ?_⟩
  rintro _ _ (n | v | f | hr | hs)
  · exact .slot n
  · exact .value v
  · exact .function f
  · exact .offset (hR _ _ hr)
  · exact .address (hS _ _ hs)

variable {ε : Type} {offset : O → Except ε O'} {address : A → Except ε A'} {i : InstrWith O A}

/-- A filled in instruction has the operands of the instruction, filled in. -/
theorem lift_of_fillIn {j : InstrWith O' A'} (h : i.fillIn offset address = .ok j) :
    Lift (fun o o' => offset o = .ok o') (fun a a' => address a = .ok a') i j := by
  cases i with
  | jumpSub target | jump target | onFault target =>
    obtain ⟨a, ha, rfl⟩ := Except.map_eq_ok.mp h
    exact ⟨rfl, .cons (.address ha) .nil⟩
  | branchZero src o | branchNonzero src o =>
    obtain ⟨o', ho, rfl⟩ := Except.map_eq_ok.mp h
    exact ⟨rfl, .cons (.slot src) (.cons (.offset ho) .nil)⟩
  | branch cmp left right o =>
    obtain ⟨o', ho, rfl⟩ := Except.map_eq_ok.mp h
    exact ⟨by cases cmp <;> rfl, .cons (.slot left) (.cons (.slot right) (.cons (.offset ho) .nil))⟩
  | unary op _ | binary op _ _ | immediate op _ _ =>
    cases h
    exact ⟨by cases op <;> rfl, by repeat' constructor⟩
  | call _ args | callInto _ _ args =>
    cases h
    cases args <;> exact ⟨rfl, by repeat' constructor⟩
  | _ =>
    cases h
    exact ⟨rfl, by repeat' constructor⟩

/-- Where two instructions are related, each operand of one has its like in the other. -/
theorem Lift.exists_of_mem {R : O → O' → Prop} {S : A → A' → Prop} {j : InstrWith O' A'}
    (h : Lift R S i j) {o : OperandWith O A} (ho : o ∈ i.operands) :
    ∃ o', OperandWith.Lift R S o o' := by
  have hflip : List.Forall₂ (flip (OperandWith.Lift R S)) j.operands i.operands :=
    h.operands.flip
  obtain ⟨o', _, hlift⟩ := exists_mem_of_forall₂ hflip ho
  exact ⟨o', hlift⟩

/-- The same, from the second to the first. -/
theorem Lift.exists_mem_of_mem {R : O → O' → Prop} {S : A → A' → Prop} {j : InstrWith O' A'}
    (h : Lift R S i j) {o' : OperandWith O' A'} (ho : o' ∈ j.operands) :
    ∃ o ∈ i.operands, OperandWith.Lift R S o o' :=
  exists_mem_of_forall₂ h.operands ho

/-- Filling in fails only where an operand cannot be filled in. -/
theorem exists_of_fillIn_error {e : ε} (h : i.fillIn offset address = .error e) :
    (∃ o, .offset o ∈ i.operands ∧ offset o = .error e) ∨
      (∃ a, .address a ∈ i.operands ∧ address a = .error e) := by
  cases i with
  | jumpSub target | jump target | onFault target =>
    exact .inr ⟨target, by simp [operands], Except.map_eq_error.mp h⟩
  | branchZero src o | branchNonzero src o | branch cmp left right o =>
    exact .inl ⟨o, by simp [operands], Except.map_eq_error.mp h⟩
  | _ => cases h

end InstrWith

/-! ## Labels as operands -/

/-- The branch offset that a reference stands for in an instruction at a position. -/
def Ref.IsDistance (labels : Labels) (position : Nat) : Ref Int8 → Int8 → Prop
  | .exact o, d => d = o
  | .label name, d =>
    ∃ target, labels.get? name = some target ∧ d.toInt = (target : Int) - position

/-- The code address that a reference stands for. -/
def Ref.IsAddress (labels : Labels) : Ref UInt32 → UInt32 → Prop
  | .exact a, b => b = a
  | .label name, b => labels.get? name = some b.toNat

/-- An instruction at a position is what a draft becomes, with the labels at their offsets. -/
def Draft.Becomes (d : Draft) (labels : Labels) (position : Nat) (i : Instr) : Prop :=
  d.Lift (Ref.IsDistance labels position) (Ref.IsAddress labels) i

/-- More labels change nothing in what a draft becomes. -/
theorem Draft.Becomes.mono {d : Draft} {labels labels' : Labels} {position : Nat} {i : Instr}
    (h : d.Becomes labels position i)
    (hle : ∀ name q, labels.get? name = some q → labels'.get? name = some q) :
    d.Becomes labels' position i := by
  refine InstrWith.Lift.imp h ?_ ?_
  · rintro (o | name) d hd
    · exact hd
    · obtain ⟨target, htarget, hd⟩ := hd
      exact ⟨target, hle name target htarget, hd⟩
  · rintro (a | name) b hb
    · exact hb
    · exact hle name b.toNat hb

namespace Emitter

variable {e : Emitter} {name : String} {known : Labels}

/-- The labels that an emitter looks at. -/
def table (e : Emitter) : Labels :=
  match e.pass with
  | .layout => e.labels
  | .emit known => known

theorem table_of_emit (hp : e.pass = .emit known) : e.table = known := by
  unfold table
  rw [hp]

theorem table_of_layout (hp : e.pass = .layout) : e.table = e.labels := by
  unfold table
  rw [hp]

theorem lookup_eq_some {q : Nat} (h : e.lookup name = .ok (some q)) :
    e.table.get? name = some q := by
  unfold lookup at h
  unfold table
  cases hp : e.pass with
  | layout =>
    rw [hp] at h
    exact Except.ok.inj h
  | emit known =>
    simp only [hp] at h ⊢
    split at h
    · rename_i target htarget
      cases h
      exact htarget
    · cases h

/-- Only the layout pass lets a label be unknown. -/
theorem pass_of_lookup_eq_none (h : e.lookup name = .ok none) : e.pass = .layout := by
  unfold lookup at h
  cases hp : e.pass with
  | layout => rfl
  | emit known =>
    simp only [hp] at h
    split at h <;> cases h

theorem lookup_eq_error {err : ProgramError} (h : e.lookup name = .error err) :
    ∃ known, e.pass = .emit known ∧ known.get? name = none ∧ err = .undefinedLabel name := by
  unfold lookup at h
  cases hp : e.pass with
  | layout =>
    rw [hp] at h
    cases h
  | emit known =>
    simp only [hp] at h
    split at h
    · cases h
    · rename_i hnone
      cases h
      exact ⟨known, rfl, hnone, rfl⟩

/-- In the emit pass a label that is found is one of the layout pass. -/
theorem exists_of_lookup {found : Option Nat} (hp : e.pass = .emit known)
    (h : e.lookup name = .ok found) :
    ∃ target, found = some target ∧ known.get? name = some target := by
  cases found with
  | none =>
    rw [pass_of_lookup_eq_none h] at hp
    cases hp
  | some target =>
    rw [← table_of_emit hp]
    exact ⟨target, rfl, lookup_eq_some h⟩

theorem isDistance_of_branchOffset {d : Int8} (hp : e.pass = .emit known)
    (h : e.branchOffset name = .ok d) : Ref.IsDistance known e.offset (.label name) d := by
  obtain ⟨found, hlookup, h⟩ := Except.bind_eq_ok.mp h
  obtain ⟨target, rfl, htarget⟩ := exists_of_lookup hp hlookup
  dsimp only at h
  split at h
  · cases h
    exact ⟨target, htarget, Int8.toInt_ofInt_of_le (by omega) (by omega)⟩
  · cases h

theorem isAddress_of_codeAddress {a : UInt32} (hp : e.pass = .emit known)
    (h : e.codeAddress name = .ok a) : Ref.IsAddress known (.label name) a := by
  obtain ⟨found, hlookup, h⟩ := Except.bind_eq_ok.mp h
  obtain ⟨target, rfl, htarget⟩ := exists_of_lookup hp hlookup
  dsimp only at h
  split at h
  · rename_i hlow
    cases h
    rw [Ref.IsAddress, htarget, UInt32.toNat_ofNat_of_lt' hlow]
  · cases h

/-- A distance is refused where the label is nowhere or too far away. -/
theorem branchOffset_eq_error {err : ProgramError} (h : e.branchOffset name = .error err) :
    (∃ known, e.pass = .emit known ∧ known.get? name = none ∧ err = .undefinedLabel name) ∨
      ∃ target : Nat, e.table.get? name = some target ∧
        ¬(-128 ≤ (target : Int) - e.offset ∧ (target : Int) - e.offset ≤ 127) ∧
        err = .branchOutOfRange name e.offset target := by
  rcases Except.bind_eq_error.mp h with hlookup | ⟨found, hlookup, h⟩
  · exact .inl (lookup_eq_error hlookup)
  · cases found with
    | none => cases h
    | some target =>
      dsimp only at h
      split at h
      · cases h
      · rename_i hfar
        cases h
        exact .inr ⟨target, lookup_eq_some hlookup, hfar, rfl⟩

/-- An address is refused where the label is nowhere or too high up. -/
theorem codeAddress_eq_error {err : ProgramError} (h : e.codeAddress name = .error err) :
    (∃ known, e.pass = .emit known ∧ known.get? name = none ∧ err = .undefinedLabel name) ∨
      ∃ target, e.table.get? name = some target ∧ ¬target < 0x100000000 ∧
        err = .addressOverflow target := by
  rcases Except.bind_eq_error.mp h with hlookup | ⟨found, hlookup, h⟩
  · exact .inl (lookup_eq_error hlookup)
  · cases found with
    | none => cases h
    | some target =>
      dsimp only at h
      split at h
      · cases h
      · rename_i hhigh
        cases h
        exact .inr ⟨target, lookup_eq_some hlookup, hhigh, rfl⟩

/-- In the emit pass an instruction is what its draft becomes. -/
theorem becomes_of_fillIn {d : Draft} {i : Instr} (hp : e.pass = .emit known)
    (h : d.fillIn e.offsetOf e.addressOf = .ok i) : d.Becomes known e.offset i := by
  refine (InstrWith.lift_of_fillIn h).imp ?_ ?_
  · rintro (o | name) o' ho
    · exact (Except.ok.inj ho).symm
    · exact isDistance_of_branchOffset hp ho
  · rintro (a | name) a' ha
    · exact (Except.ok.inj ha).symm
    · exact isAddress_of_codeAddress hp ha

end Emitter

end Pledge
