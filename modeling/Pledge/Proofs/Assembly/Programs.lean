-- Plain programs of the assembler: actions in a row that count in both passes,
-- where the first error ends the program. Such a program is assembled exactly
-- if its labels are placed once and within reach, and then its code is what
-- was written.
import Pledge.Proofs.Assembly.Passes

namespace Pledge

/-! ## What actions give -/

namespace Draft

/-- The labels that stand for branch offsets. -/
def distancesTo (d : Draft) : List String :=
  d.operands.filterMap fun
    | .offset (.label name) => some name
    | _ => none

/-- The labels that stand for code addresses. -/
def addressesOf (d : Draft) : List String :=
  d.operands.filterMap fun
    | .address (.label name) => some name
    | _ => none

end Draft

namespace Action

/-- The length of the code of an action. -/
def size : Action → Nat
  | .emit draft => draft.size
  | .nops count => count
  | _ => 0

/-- The length of the code of actions in a row. -/
def codeSize : List Action → Nat
  | [] => 0
  | a :: rest => a.size + codeSize rest

/-- What actions in a row give, each from the position where its code begins. -/
def along {α : Type} (give : Nat → Action → List α) : Nat → List Action → List α
  | _, [] => []
  | position, a :: rest => give position a ++ along give (position + a.size) rest

/-- The label that an action places. -/
def placement (position : Nat) : Action → List (String × Nat)
  | .place name => [(name, position)]
  | _ => []

/-- The instructions that an action writes. -/
def writing (position : Nat) : Action → List (Nat × Draft)
  | .emit draft => [(position, draft)]
  | .nops count => (List.range' position count).map fun p => (p, .nop)
  | _ => []

/-- The labels whose distance an action asks for. -/
def distancesTo : Action → List String
  | .emit draft => draft.distancesTo
  | .branchOffset name => [name]
  | _ => []

/-- The labels whose address an action asks for. -/
def addressesOf : Action → List String
  | .emit draft => draft.addressesOf
  | .codeAddress name => [name]
  | _ => []

/-- The labels that a program places, with their positions. -/
def placements (actions : List Action) : List (String × Nat) := along placement 0 actions

/-- The instructions that a program writes, with their positions. -/
def writings (actions : List Action) : List (Nat × Draft) := along writing 0 actions

/-- The labels whose distance a program asks for, with the positions it asks from. -/
def distances (actions : List Action) : List (Nat × String) :=
  along (fun position a => a.distancesTo.map (position, ·)) 0 actions

/-- The labels whose address a program asks for. -/
def addresses (actions : List Action) : List String :=
  along (fun _ a => a.addressesOf) 0 actions

theorem mem_along {α : Type} {give : Nat → Action → List α} {position : Nat}
    {actions : List Action} {x : α} :
    x ∈ along give position actions ↔ ∃ before a after,
      actions = before ++ a :: after ∧ x ∈ give (position + codeSize before) a := by
  induction actions generalizing position with
  | nil => simp [along]
  | cons first actions ih =>
    rw [along, List.mem_append, ih]
    constructor
    · rintro (hx | ⟨before, a, after, rfl, hx⟩)
      · exact ⟨[], first, actions, rfl, hx⟩
      · refine ⟨first :: before, a, after, rfl, ?_⟩
        rw [codeSize, ← Nat.add_assoc]
        exact hx
    · rintro ⟨before, a, after, hsplit, hx⟩
      cases before with
      | nil =>
        cases hsplit
        exact .inl hx
      | cons b before =>
        cases hsplit
        rw [codeSize, ← Nat.add_assoc] at hx
        exact .inr ⟨before, a, after, rfl, hx⟩

theorem along_append {α : Type} (give : Nat → Action → List α) (position : Nat)
    (before after : List Action) :
    along give position (before ++ after) =
      along give position before ++ along give (position + codeSize before) after := by
  induction before generalizing position with
  | nil => rfl
  | cons a before ih =>
    rw [List.cons_append, along, along, ih, codeSize, List.append_assoc, Nat.add_assoc]

/-! ## Well placed labels -/

/-- The labels of a program are well placed. -/
structure WellPlaced (actions : List Action) : Prop where
  /-- No label is placed twice. -/
  once : ((placements actions).map Prod.fst).Nodup
  /-- Every label that the program asks for is placed. -/
  placed : ∀ name, (∃ p, (p, name) ∈ distances actions) ∨ name ∈ addresses actions →
    ∃ q, (name, q) ∈ placements actions
  /-- Branches reach their labels. -/
  near : ∀ name p q, (p, name) ∈ distances actions → (name, q) ∈ placements actions →
    -128 ≤ (q : Int) - p ∧ (q : Int) - p ≤ 127
  /-- Addresses fit their operands. -/
  low : ∀ name q, name ∈ addresses actions → (name, q) ∈ placements actions → q < 0x100000000

end Action

/-- The program of actions that count in both passes and end it when they fail. -/
def Source.plain (actions : List Action) : Source := actions.map fun action => { action }

open Pledge.Action Pledge.Source

namespace Emitter

variable {e e' e₁ e₂ : Emitter} {known : Labels} {a : Action} {actions : List Action}
  {name : String} {err : ProgramError}

/-! ## What an action does -/

theorem length_code_emissionsOf (h : Step e a e') :
    (Emission.code (e.emissionsOf a)).length = a.size := by
  cases h with
  | @emit draft i hi =>
    have hsize : i.size = draft.size := congrArg Opcode.size (InstrWith.lift_of_fillIn hi).opcode
    simp [emissionsOf, hi, Emission.code, Instr.encodeAll, Instr.length_toBytes, hsize, Action.size]
  | nops count =>
    rw [emissionsOf, Emission.code_nops]
    induction count with
    | zero => rfl
    | succ count ih =>
      rw [List.replicate_succ, Instr.encodeAll_cons, List.length_append, ih]
      exact Nat.add_comm 1 count
  | place _ _ | branchOffset _ | codeAddress _ => rfl

theorem offset_of_step (h : Step e a e') : e'.offset = e.offset + a.size := by
  rw [(grows_of_step h).offset, length_code_emissionsOf h]

theorem labels_of_step (h : Step e a e') :
    e'.labels = e.labels.insertAll (a.placement e.offset) := by
  cases h with
  | nops count => exact (e.appendTimes_eq .nop count).2.1
  | emit _ | place _ _ | branchOffset _ | codeAddress _ => rfl

/-- An action places a label that is new. -/
theorem fresh_of_step (h : Step e a e') {entries : List (String × Nat)}
    (hentries : e'.labels.Fresh entries) : e.labels.Fresh (a.placement e.offset ++ entries) := by
  rw [labels_of_step h] at hentries
  cases h with
  | place hnew _ => exact Labels.fresh_cons.mpr ⟨hnew, hentries⟩
  | emit _ | nops _ | branchOffset _ | codeAddress _ => exact hentries

/-- An action emits what it writes. -/
theorem writing_of_step (h : Step e a e') :
    (e.emissionsOf a).map (fun x => (x.position, x.draft)) = a.writing e.offset := by
  cases h with
  | emit hi => simp only [emissionsOf, hi, writing, List.map_cons, List.map_nil]
  | nops count => simp [emissionsOf, writing, Emission.nops]
  | place _ _ | branchOffset _ | codeAddress _ => rfl

/-- In the emit pass an action gets the distances that it asks for. -/
theorem isDistance_of_step (h : Step e a e') (hp : e.pass = .emit known)
    (hname : name ∈ a.distancesTo) : ∃ d, Ref.IsDistance known e.offset (.label name) d := by
  cases h with
  | @emit draft i hi =>
    obtain ⟨o, ho, hlabel⟩ := List.mem_filterMap.mp hname
    have hbecomes : draft.Becomes known e.offset i := becomes_of_fillIn hp hi
    obtain ⟨o', hlift⟩ := InstrWith.Lift.exists_of_mem hbecomes ho
    cases hlift with
    | @offset ref d hd =>
      cases ref with
      | exact _ => cases hlabel
      | label _ =>
        cases hlabel
        exact ⟨d, hd⟩
    | slot _ | value _ | function _ | address _ => cases hlabel
  | @branchOffset label d hd =>
    cases List.mem_singleton.mp hname
    exact ⟨d, isDistance_of_branchOffset hp hd⟩
  | nops _ | place _ _ | codeAddress _ => cases hname

/-- In the emit pass an action gets the addresses that it asks for. -/
theorem isAddress_of_step (h : Step e a e') (hp : e.pass = .emit known)
    (hname : name ∈ a.addressesOf) : ∃ b, Ref.IsAddress known (.label name) b := by
  cases h with
  | @emit draft i hi =>
    obtain ⟨o, ho, hlabel⟩ := List.mem_filterMap.mp hname
    have hbecomes : draft.Becomes known e.offset i := becomes_of_fillIn hp hi
    obtain ⟨o', hlift⟩ := InstrWith.Lift.exists_of_mem hbecomes ho
    cases hlift with
    | @address ref b hb =>
      cases ref with
      | exact _ => cases hlabel
      | label _ =>
        cases hlabel
        exact ⟨b, hb⟩
    | slot _ | value _ | function _ | offset _ => cases hlabel
  | @codeAddress label b hb =>
    cases List.mem_singleton.mp hname
    exact ⟨b, isAddress_of_codeAddress hp hb⟩
  | nops _ | place _ _ | branchOffset _ => cases hname

/-! ## Where an action fails -/

/-- How an action can fail. -/
inductive Failure (e : Emitter) : Action → ProgramError → Prop
  | duplicate {name : String} {q : Nat} (h : e.labels.get? name = some q) :
      Failure e (.place name) (.duplicateLabel name)
  | moved {name : String} {known : Labels} {first : Nat} (hp : e.pass = .emit known)
      (hfirst : known.get? name = some first) (hmoved : first ≠ e.offset) :
      Failure e (.place name) (.labelMoved name first e.offset)
  | undefined {a : Action} {name : String} {known : Labels} (hp : e.pass = .emit known)
      (hname : name ∈ a.distancesTo ∨ name ∈ a.addressesOf) (hnone : known.get? name = none) :
      Failure e a (.undefinedLabel name)
  | far {a : Action} {name : String} {target : Nat} (hname : name ∈ a.distancesTo)
      (htarget : e.table.get? name = some target)
      (hfar : ¬(-128 ≤ (target : Int) - e.offset ∧ (target : Int) - e.offset ≤ 127)) :
      Failure e a (.branchOutOfRange name e.offset target)
  | high {a : Action} {name : String} {target : Nat} (hname : name ∈ a.addressesOf)
      (htarget : e.table.get? name = some target) (hhigh : ¬target < 0x100000000) :
      Failure e a (.addressOverflow target)

theorem failure_of_place (h : e.place name = .error err) : Failure e (.place name) err := by
  unfold place at h
  split at h
  · rename_i hcontains
    cases h
    obtain ⟨q, hq⟩ := Option.isSome_iff_exists.mp hcontains
    exact .duplicate hq
  · dsimp only at h
    split at h
    · cases h
    · rename_i known hp
      split at h
      · cases h
      · rename_i first hfirst
        split at h
        · cases h
        · rename_i hmoved
          cases h
          exact .moved hp hfirst hmoved

theorem failure_of_branchOffset (hname : name ∈ a.distancesTo)
    (h : e.branchOffset name = .error err) : Failure e a err := by
  rcases branchOffset_eq_error h with ⟨known, hp, hnone, rfl⟩ | ⟨target, htarget, hfar, rfl⟩
  · exact .undefined hp (.inl hname) hnone
  · exact .far hname htarget hfar

theorem failure_of_codeAddress (hname : name ∈ a.addressesOf)
    (h : e.codeAddress name = .error err) : Failure e a err := by
  rcases codeAddress_eq_error h with ⟨known, hp, hnone, rfl⟩ | ⟨target, htarget, hhigh, rfl⟩
  · exact .undefined hp (.inr hname) hnone
  · exact .high hname htarget hhigh

theorem failure_of_emit {draft : Draft} (h : e.emit draft = .error err) :
    Failure e (.emit draft) err := by
  rcases InstrWith.exists_of_fillIn_error (Except.map_eq_error.mp h) with
    ⟨o, ho, h⟩ | ⟨a, ha, h⟩
  · cases o with
    | exact _ => cases h
    | label name => exact failure_of_branchOffset (List.mem_filterMap.mpr ⟨_, ho, rfl⟩) h
  · cases a with
    | exact _ => cases h
    | label name => exact failure_of_codeAddress (List.mem_filterMap.mpr ⟨_, ha, rfl⟩) h

theorem failure_of_perform (h : e.perform a = .error err) : Failure e a err := by
  cases a with
  | emit draft =>
    rcases Except.bind_eq_error.mp h with h | ⟨_, _, h⟩
    · exact failure_of_emit h
    · cases h
  | nops count => cases h
  | place name =>
    rcases Except.bind_eq_error.mp h with h | ⟨_, _, h⟩
    · exact failure_of_place h
    · cases h
  | branchOffset name =>
    rcases Except.bind_eq_error.mp h with h | ⟨_, _, h⟩
    · exact failure_of_branchOffset List.mem_cons_self h
    · cases h
  | codeAddress name =>
    rcases Except.bind_eq_error.mp h with h | ⟨_, _, h⟩
    · exact failure_of_codeAddress List.mem_cons_self h
    · cases h

/-! ## Runs of plain programs -/

theorem run_plain_cons (e : Emitter) (a : Action) (actions : List Action) :
    e.run (plain (a :: actions)) =
      e.perform a >>= fun outcome => outcome.1.run (plain actions) := by
  have hruns : ({ action := a } : Statement).runsIn e.pass = true := rfl
  rw [plain, List.map_cons, run, if_pos hruns]
  cases e.perform a <;> rfl

theorem emissions_plain_cons {answer : Option Int} (h : e.perform a = .ok (e₁, answer)) :
    e.emissions (plain (a :: actions)) = e.emissionsOf a ++ e₁.emissions (plain actions) := by
  have hruns : ({ action := a } : Statement).runsIn e.pass = true := rfl
  rw [plain, List.map_cons, emissions, if_pos hruns]
  simp only [h]
  rfl

/-- What a plain program does to an emitter: its code grows by what is written, and the labels that
it places are put in, each of them new. -/
structure Follows (e : Emitter) (actions : List Action) (e' : Emitter) : Prop where
  offset : e'.offset = e.offset + codeSize actions
  labels : e'.labels = e.labels.insertAll (along placement e.offset actions)
  fresh : e.labels.Fresh (along placement e.offset actions)
  writings : (e.emissions (plain actions)).map (fun x => (x.position, x.draft)) =
    along writing e.offset actions

theorem follows_of_run (h : e.run (plain actions) = .ok e') : Follows e actions e' := by
  induction actions generalizing e with
  | nil =>
    cases h
    exact ⟨rfl, rfl, ⟨List.nodup_nil, fun _ _ hmem => nomatch hmem⟩, rfl⟩
  | cons a actions ih =>
    rw [run_plain_cons] at h
    obtain ⟨⟨e₁, answer⟩, hperform, h⟩ := Except.bind_eq_ok.mp h
    have hstep := step_of_perform hperform
    -- The rest of the program begins behind the code of the first action.
    have hoffset := offset_of_step hstep
    obtain ⟨offset, labels, fresh, writings⟩ := ih h
    rw [hoffset] at offset labels fresh writings
    refine ⟨?_, ?_, ?_, ?_⟩
    · rw [offset, codeSize, Nat.add_assoc]
    · rw [labels, labels_of_step hstep, along, Labels.insertAll_append]
    · rw [along]
      exact fresh_of_step hstep fresh
    · rw [emissions_plain_cons hperform, List.map_append, writing_of_step hstep, writings, along]

/-- A plain program that ends performs each of its actions after those in front of it. -/
theorem step_of_run {before after : List Action}
    (h : e.run (plain (before ++ a :: after)) = .ok e') :
    ∃ e₁ e₂, e.run (plain before) = .ok e₁ ∧ Step e₁ a e₂ := by
  induction before generalizing e with
  | nil =>
    rw [List.nil_append, run_plain_cons] at h
    obtain ⟨⟨e₂, answer⟩, hperform, _⟩ := Except.bind_eq_ok.mp h
    exact ⟨e, e₂, rfl, step_of_perform hperform⟩
  | cons b before ih =>
    rw [List.cons_append, run_plain_cons] at h
    obtain ⟨⟨eb, answer⟩, hperform, h⟩ := Except.bind_eq_ok.mp h
    obtain ⟨e₁, e₂, hrun, hstep⟩ := ih h
    refine ⟨e₁, e₂, ?_, hstep⟩
    rw [run_plain_cons]
    exact Except.bind_eq_ok.mpr ⟨_, hperform, hrun⟩

/-- A plain program fails at one of its actions, after those in front of it. -/
theorem failure_of_run (h : e.run (plain actions) = .error err) :
    ∃ before a after e₁, actions = before ++ a :: after ∧ e.run (plain before) = .ok e₁ ∧
      Failure e₁ a err := by
  induction actions generalizing e with
  | nil => cases h
  | cons a actions ih =>
    rw [run_plain_cons] at h
    rcases Except.bind_eq_error.mp h with hperform | ⟨⟨e₁, answer⟩, hperform, h⟩
    · exact ⟨[], a, actions, e, rfl, rfl, failure_of_perform hperform⟩
    · obtain ⟨before, b, after, e₂, rfl, hrun, hfailure⟩ := ih h
      refine ⟨a :: before, b, after, e₂, rfl, ?_, hfailure⟩
      rw [run_plain_cons]
      exact Except.bind_eq_ok.mpr ⟨_, hperform, hrun⟩

/-- An emitter that has run actions from the beginning of a pass. -/
structure Ran (actions : List Action) (e : Emitter) : Prop where
  offset : e.offset = codeSize actions
  once : ((placements actions).map Prod.fst).Nodup
  placed : ∀ name q, e.labels.get? name = some q ↔ (name, q) ∈ placements actions

theorem ran_of_run {pass : Pass} (h : ({ pass } : Emitter).run (plain actions) = .ok e) :
    e.pass = pass ∧ Ran actions e := by
  have hfollows := follows_of_run h
  refine ⟨(grows_of_run h).pass, ?_, hfollows.fresh.once, ?_⟩
  · rw [hfollows.offset]
    exact Nat.zero_add _
  · intro name q
    rw [hfollows.labels, hfollows.fresh.get?_insertAll]
    constructor
    · rintro (hempty | hmem)
      · cases hempty
      · exact hmem
    · exact .inr

/-! ## Programs that fail -/

/-- An emitter in one of the passes of a program, in front of an action. -/
structure Midway (before : List Action) (a : Action) (after : List Action) (e : Emitter) :
    Prop where
  ran : Ran before e
  known : ∀ known, e.pass = .emit known →
    ∃ first, Ran (before ++ a :: after) first ∧ first.labels = known

theorem midway_of_layout {before after : List Action}
    (h : (plain before).layout = .ok e) : Midway before a after e := by
  obtain ⟨hpass, hran⟩ := ran_of_run h
  refine ⟨hran, ?_⟩
  intro known hp
  rw [hpass] at hp
  cases hp

theorem midway_of_emit {before after : List Action} {first : Emitter}
    (hfirst : (plain (before ++ a :: after)).layout = .ok first)
    (h : ({ pass := .emit first.labels } : Emitter).run (plain before) = .ok e) :
    Midway before a after e := by
  obtain ⟨hpass, hran⟩ := ran_of_run h
  refine ⟨hran, ?_⟩
  intro known hp
  rw [hpass] at hp
  cases hp
  exact ⟨first, (ran_of_run hfirst).2, rfl⟩

namespace Midway

variable {before after : List Action}

/-- The labels that are looked at are where the program places them. -/
theorem table_get? (h : Midway before a after e) {q : Nat} (hq : e.table.get? name = some q) :
    (name, q) ∈ placements (before ++ a :: after) := by
  cases hp : e.pass with
  | layout =>
    rw [table_of_layout hp, h.ran.placed] at hq
    rw [placements, along_append]
    exact List.mem_append_left _ hq
  | emit known =>
    obtain ⟨first, hfirst, rfl⟩ := h.known known hp
    rw [table_of_emit hp] at hq
    exact (hfirst.placed name q).mp hq

theorem mem_along (h : Midway before a after e) {α : Type} {give : Nat → Action → List α} {x : α}
    (hx : x ∈ give e.offset a) : x ∈ along give 0 (before ++ a :: after) := by
  rw [h.ran.offset] at hx
  exact Action.mem_along.mpr ⟨before, a, after, rfl, (Nat.zero_add (codeSize before)).symm ▸ hx⟩

/-- The emit pass of a plain program finds every label where the layout pass placed it. -/
theorem not_moved (h : Midway before (.place name) after e) (hp : e.pass = .emit known) {q : Nat}
    (hq : known.get? name = some q) : q = e.offset := by
  obtain ⟨first, hfirst, rfl⟩ := h.known known hp
  have hhere : (name, e.offset) ∈ placements (before ++ .place name :: after) :=
    h.mem_along List.mem_cons_self
  rw [(hfirst.placed name e.offset).mpr hhere] at hq
  exact (Option.some.inj hq).symm

/-- An action whose program has its labels well placed does not fail. -/
theorem not_failure (h : Midway before a after e) (hwell : WellPlaced (before ++ a :: after)) :
    ¬Failure e a err := by
  intro hfailure
  cases hfailure with
  | @duplicate name q hq =>
    -- The label is placed in front of the action and by it.
    have honce := hwell.once
    rw [placements, along_append, List.map_append, List.nodup_append] at honce
    have hbefore : name ∈ (placements before).map Prod.fst :=
      List.mem_map.mpr ⟨(name, q), (h.ran.placed name q).mp hq, rfl⟩
    exact honce.2.2 name hbefore name List.mem_cons_self rfl
  | moved hp hfirst hmoved => exact hmoved (h.not_moved hp hfirst)
  | @undefined _ name known hp hname hnone =>
    obtain ⟨first, hfirst, rfl⟩ := h.known known hp
    have hasked : (∃ p, (p, name) ∈ distances (before ++ a :: after)) ∨
        name ∈ addresses (before ++ a :: after) := by
      rcases hname with hname | hname
      · exact .inl ⟨e.offset, h.mem_along (List.mem_map_of_mem hname)⟩
      · exact .inr (h.mem_along hname)
    obtain ⟨q, hq⟩ := hwell.placed name hasked
    rw [(hfirst.placed name q).mpr hq] at hnone
    cases hnone
  | @far _ name target hname htarget hfar =>
    have hasked : (e.offset, name) ∈ distances (before ++ a :: after) :=
      h.mem_along (List.mem_map_of_mem hname)
    exact hfar (hwell.near name e.offset target hasked (h.table_get? htarget))
  | @high _ name target hname htarget hhigh =>
    exact hhigh (hwell.low name target (h.mem_along hname) (h.table_get? htarget))

end Midway

end Emitter

namespace Source

open Emitter

variable {actions : List Action}

/-- A plain program that is not assembled fails at one of its actions. -/
theorem failure_of_assemble {err : ProgramError} (h : (plain actions).assemble = .error err) :
    ∃ before a after e, actions = before ++ a :: after ∧ Midway before a after e ∧
      Failure e a err := by
  rcases Except.bind_eq_error.mp h with hlayout | ⟨first, hlayout, hrest⟩
  · obtain ⟨before, a, after, e, hsplit, hrun, hfailure⟩ := failure_of_run hlayout
    exact ⟨before, a, after, e, hsplit, midway_of_layout hrun, hfailure⟩
  rcases Except.bind_eq_error.mp hrest with hemit | ⟨second, hemit, _⟩
  · obtain ⟨before, a, after, e, rfl, hrun, hfailure⟩ := failure_of_run hemit
    exact ⟨before, a, after, e, rfl, midway_of_emit hlayout hrun, hfailure⟩
  -- Where both passes end, they agree, and the program is assembled.
  · have hfirst := (ran_of_run hlayout).2
    have hsecond := (ran_of_run hemit).2
    have hplaced : ∀ name, first.labels.contains name = true →
        second.labels.contains name = true := by
      intro name hname
      obtain ⟨q, hq⟩ := Option.isSome_iff_exists.mp hname
      rw [hfirst.placed, ← hsecond.placed] at hq
      exact Labels.contains_of_get? hq
    have hok := assemble_eq_ok.mpr ⟨first, second, hlayout, hemit,
      hsecond.offset.trans hfirst.offset.symm, hplaced, rfl⟩
    rw [hok] at h
    cases h

/-- Where the emit pass ends, the labels are well placed. -/
theorem wellPlaced_of_run {first second : Emitter} (hlayout : (plain actions).layout = .ok first)
    (hemit : ({ pass := .emit first.labels } : Emitter).run (plain actions) = .ok second) :
    WellPlaced actions := by
  have hfirst := (ran_of_run hlayout).2
  -- The emit pass answers every question about a label from the labels of the layout pass.
  have hdistance : ∀ name p, (p, name) ∈ distances actions →
      ∃ d, Ref.IsDistance first.labels p (.label name) d := by
    intro name p hmem
    obtain ⟨before, a, after, rfl, hasked⟩ := mem_along.mp hmem
    obtain ⟨label, hname, heq⟩ := List.mem_map.mp hasked
    cases heq
    obtain ⟨e₁, e₂, hrun, hstep⟩ := step_of_run hemit
    obtain ⟨hpass, hran⟩ := ran_of_run hrun
    rw [Nat.zero_add, ← hran.offset]
    exact isDistance_of_step hstep hpass hname
  have haddress : ∀ name, name ∈ addresses actions →
      ∃ b, Ref.IsAddress first.labels (.label name) b := by
    intro name hmem
    obtain ⟨before, a, after, rfl, hname⟩ := mem_along.mp hmem
    obtain ⟨e₁, e₂, hrun, hstep⟩ := step_of_run hemit
    obtain ⟨hpass, _⟩ := ran_of_run hrun
    exact isAddress_of_step hstep hpass hname
  refine ⟨hfirst.once, ?_, ?_, ?_⟩
  · rintro name (⟨p, hmem⟩ | hmem)
    · obtain ⟨_, target, htarget, _⟩ := hdistance name p hmem
      exact ⟨target, (hfirst.placed name target).mp htarget⟩
    · obtain ⟨b, hb⟩ := haddress name hmem
      exact ⟨b.toNat, (hfirst.placed name b.toNat).mp hb⟩
  · intro name p q hmem hq
    obtain ⟨d, target, htarget, hd⟩ := hdistance name p hmem
    rw [(hfirst.placed name q).mpr hq] at htarget
    cases htarget
    -- An offset that fits its operand is within reach.
    have hmin := d.le_toInt
    have hmax := d.toInt_lt
    omega
  · intro name q hmem hq
    obtain ⟨b, hb⟩ := haddress name hmem
    rw [Ref.IsAddress, (hfirst.placed name q).mpr hq] at hb
    cases hb
    exact b.toNat_lt

/-- The labels of an assembled plain program are those it places, and its code is what it writes. -/
theorem written_of_assemble {out : Assembled} (h : (plain actions).assemble = .ok out) :
    (∀ name q, (name, q) ∈ out.labels.entries ↔ (name, q) ∈ placements actions) ∧
      ∃ is, List.Forall₂ (fun x i => Draft.Becomes x.2 out.labels x.1 i) (writings actions) is ∧
        out.code = Instr.encodeAll is := by
  obtain ⟨first, second, hlayout, hemit, _, _, rfl⟩ := assemble_eq_ok.mp h
  have hfirst := (ran_of_run hlayout).2
  have hsecond := (ran_of_run hemit).2
  have hgrows := grows_of_run hemit
  refine ⟨fun name q => Labels.mem_entries.trans (hsecond.placed name q),
    (emissions _ (plain actions)).map Emission.instr, ?_, hgrows.code⟩
  have hwritings : _ = writings actions := (follows_of_run hemit).writings
  rw [← hwritings, List.forall₂_map_left_iff, List.forall₂_map_right_iff, List.forall₂_same]
  intro x hx
  refine (hgrows.becomes first.labels rfl x hx).mono ?_
  intro name q hq
  rw [hfirst.placed, ← hsecond.placed] at hq
  exact hq

theorem exists_assemble_iff :
    (∃ out, (plain actions).assemble = .ok out) ↔ WellPlaced actions := by
  constructor
  · rintro ⟨out, h⟩
    obtain ⟨first, second, hlayout, hemit, _⟩ := assemble_eq_ok.mp h
    exact wellPlaced_of_run hlayout hemit
  · intro hwell
    cases h : (plain actions).assemble with
    | ok out => exact ⟨out, rfl⟩
    | error err =>
      obtain ⟨before, a, after, e, rfl, hmidway, hfailure⟩ := failure_of_assemble h
      exact absurd hfailure (hmidway.not_failure hwell)

/-- A plain program is assembled exactly if no label is placed twice, every label that it asks for
is placed, and branches and addresses reach their labels. Then the labels are where the program
places them, and the code is what it writes, one instruction behind the other, with the distances
and addresses of the labels filled in. The passes never disagree. That the labels are in the order
of their names is what the type of tables says. -/
theorem plain_programs_are_assembled_iff_well_placed (actions : List Action) :
    ((∃ out, (plain actions).assemble = .ok out) ↔ WellPlaced actions) ∧
      (∀ out, (plain actions).assemble = .ok out →
        out.labels.entries.Pairwise (fun x y => x.1 < y.1) ∧
        (∀ name q, (name, q) ∈ out.labels.entries ↔ (name, q) ∈ placements actions) ∧
        ∃ is, List.Forall₂ (fun x i => Draft.Becomes x.2 out.labels x.1 i) (writings actions) is ∧
          out.code = Instr.encodeAll is) ∧
      (∀ name first second,
        (plain actions).assemble ≠ .error (.labelMoved name first second)) ∧
      ∀ first second, (plain actions).assemble ≠ .error (.lengthDiverged first second) := by
  refine ⟨exists_assemble_iff, ?_, ?_, ?_⟩
  · intro out h
    exact ⟨out.labels.sorted, written_of_assemble h⟩
  · intro name first second h
    obtain ⟨before, a, after, e, rfl, hmidway, hfailure⟩ := failure_of_assemble h
    cases hfailure with
    | moved hp hfirst hmoved => exact hmoved (hmidway.not_moved hp hfirst)
  · intro first second h
    obtain ⟨before, a, after, e, rfl, hmidway, hfailure⟩ := failure_of_assemble h
    cases hfailure

-- The farthest that a branch reaches, and one step more.
example :
    (plain [.emit (.branchZero 0 (.label "end")), .nops 121, .place "end"]).assemble.toOption.map
      Assembled.labels = some { entries := [("end", 127)] } := by decide +kernel

example :
    (plain [.emit (.branchZero 0 (.label "end")), .nops 122, .place "end"]).assemble.toOption =
      none := by decide +kernel

end Source

end Pledge
