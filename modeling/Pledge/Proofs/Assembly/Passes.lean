-- The two passes of the assembler: what a pass emits, and what it can do to
-- the labels. Whatever the statements of a program do, and whatever errors
-- they pass over, a program that is assembled refers to its labels where
-- they are.
import Pledge.Proofs.Assembly.References
import Pledge.Proofs.Decoding

namespace Pledge

/-- An instruction that a pass emits: where it stands, what was written for it, and what it is. -/
structure Emission where
  position : Nat
  draft : Draft
  instr : Instr
  deriving DecidableEq, Repr

namespace Emission

/-- The code of emissions in a row. -/
def code (es : List Emission) : Bytes := Instr.encodeAll (es.map Emission.instr)

theorem code_append (es fs : List Emission) : code (es ++ fs) = code es ++ code fs := by
  unfold code
  rw [List.map_append, Instr.encodeAll_append]

/-- Each emission stands behind the one in front of it, the first at a position. -/
def LaidOut : Nat → List Emission → Prop
  | _, [] => True
  | position, x :: es => x.position = position ∧ LaidOut (position + x.instr.size) es

theorem laidOut_append {position : Nat} {es fs : List Emission} (hes : LaidOut position es)
    (hfs : LaidOut (position + (code es).length) fs) : LaidOut position (es ++ fs) := by
  induction es generalizing position with
  | nil => exact hfs
  | cons x es ih =>
    refine ⟨hes.1, ih hes.2 ?_⟩
    have hlen : (code (x :: es)).length = x.instr.size + (code es).length := by
      unfold code
      rw [List.map_cons, Instr.encodeAll_cons, List.length_append, Instr.length_toBytes]
    rw [hlen, ← Nat.add_assoc] at hfs
    exact hfs

/-- An emission stands behind the code of those in front of it. -/
theorem LaidOut.position_eq {position : Nat} {before after : List Emission} {x : Emission}
    (h : LaidOut position (before ++ x :: after)) :
    x.position = position + (code before).length := by
  induction before generalizing position with
  | nil => exact h.1
  | cons y before ih =>
    rw [ih h.2]
    unfold code
    rw [List.map_cons, Instr.encodeAll_cons, List.length_append, Instr.length_toBytes,
      Nat.add_assoc]

/-- A number of instructions without effect from a position on. -/
def nops (position count : Nat) : List Emission :=
  (List.range' position count).map fun p => ⟨p, .nop, .nop⟩

theorem nops_succ (position count : Nat) :
    nops position (count + 1) = ⟨position, .nop, .nop⟩ :: nops (position + 1) count := by
  unfold nops
  rw [List.range'_succ, List.map_cons]

theorem code_nops (position count : Nat) :
    code (nops position count) = Instr.encodeAll (List.replicate count .nop) := by
  induction count generalizing position with
  | zero => rfl
  | succ count ih =>
    have htail := ih (position + 1)
    unfold code at htail ⊢
    rw [nops_succ, List.map_cons, List.replicate_succ, Instr.encodeAll_cons, Instr.encodeAll_cons,
      htail]

theorem laidOut_nops (position count : Nat) : LaidOut position (nops position count) := by
  induction count generalizing position with
  | zero => trivial
  | succ count ih =>
    rw [nops_succ]
    exact ⟨rfl, ih (position + 1)⟩

end Emission

namespace Emitter

variable {e e' e₁ : Emitter} {known : Labels}

/-! ## One action -/

theorem offset_eq (e : Emitter) : e.offset = e.code.toList.length := Array.length_toList.symm

theorem toList_code_append (e : Emitter) (i : Instr) :
    (e.append i).code.toList = e.code.toList ++ Wire.toBytes i :=
  Wire.toList_encodeInto e.code i

theorem appendTimes_eq (e : Emitter) (i : Instr) (n : Nat) :
    (e.appendTimes i n).pass = e.pass ∧ (e.appendTimes i n).labels = e.labels ∧
      (e.appendTimes i n).code.toList =
        e.code.toList ++ Instr.encodeAll (List.replicate n i) := by
  induction n generalizing e with
  | zero => simp [appendTimes, Instr.encodeAll]
  | succ n ih =>
    obtain ⟨hpass, hlabels, hcode⟩ := ih (e.append i)
    refine ⟨hpass, hlabels, ?_⟩
    rw [appendTimes, hcode, toList_code_append, List.append_assoc, List.replicate_succ,
      Instr.encodeAll_cons]

/-- If the emit pass knows a label from the layout pass, then at this offset. -/
def Unmoved (e : Emitter) (name : String) (q : Nat) : Prop :=
  ∀ known first, e.pass = .emit known → known.get? name = some first → first = q

theorem unmoved_of_layout {name : String} {q : Nat} (hp : e.pass = .layout) :
    e.Unmoved name q := by
  intro known first hp'
  rw [hp] at hp'
  cases hp'

theorem unmoved_of_emit {name : String} {q : Nat} (hp : e.pass = .emit known)
    (h : ∀ first, known.get? name = some first → first = q) : e.Unmoved name q := by
  intro known' first hp' hfirst
  rw [hp] at hp'
  cases hp'
  exact h first hfirst

/-- What an action can do. -/
inductive Step (e : Emitter) : Action → Emitter → Prop
  | emit {draft : Draft} {i : Instr} (h : draft.fillIn e.offsetOf e.addressOf = .ok i) :
      Step e (.emit draft) (e.append i)
  | nops (count : Nat) : Step e (.nops count) (e.appendTimes .nop count)
  | place {name : String} (hnew : e.labels.get? name = none) (hmoved : e.Unmoved name e.offset) :
      Step e (.place name) { e with labels := e.labels.insert name e.offset }
  | branchOffset {name : String} {d : Int8} (h : e.branchOffset name = .ok d) :
      Step e (.branchOffset name) e
  | codeAddress {name : String} {a : UInt32} (h : e.codeAddress name = .ok a) :
      Step e (.codeAddress name) e

theorem step_of_place {name : String} (h : e.place name = .ok e') : Step e (.place name) e' := by
  unfold place at h
  split at h
  · cases h
  · rename_i hcontains
    have hnew : e.labels.get? name = none := by
      cases hget : e.labels.get? name with
      | none => rfl
      | some q => exact absurd (Labels.contains_of_get? hget) hcontains
    dsimp only at h
    split at h
    · rename_i hp
      cases h
      exact .place hnew (unmoved_of_layout hp)
    · rename_i known hp
      split at h
      · rename_i hnone
        cases h
        refine .place hnew (unmoved_of_emit hp ?_)
        intro first hfirst
        rw [hnone] at hfirst
        cases hfirst
      · rename_i first hsome
        split at h
        · rename_i hsame
          cases h
          refine .place hnew (unmoved_of_emit hp ?_)
          intro first' hfirst
          rw [hsome] at hfirst
          cases hfirst
          exact hsame
        · cases h

theorem step_of_perform {a : Action} {answer : Option Int} (h : e.perform a = .ok (e', answer)) :
    Step e a e' := by
  cases a with
  | emit draft =>
    obtain ⟨e₁, hemit, h⟩ := Except.bind_eq_ok.mp h
    cases h
    obtain ⟨i, hi, rfl⟩ := Except.map_eq_ok.mp hemit
    exact .emit hi
  | nops count =>
    cases h
    exact .nops count
  | place name =>
    obtain ⟨e₁, hplace, h⟩ := Except.bind_eq_ok.mp h
    cases h
    exact step_of_place hplace
  | branchOffset name =>
    obtain ⟨d, hd, h⟩ := Except.bind_eq_ok.mp h
    cases h
    exact .branchOffset hd
  | codeAddress name =>
    obtain ⟨a, ha, h⟩ := Except.bind_eq_ok.mp h
    cases h
    exact .codeAddress ha

/-! ## What a pass emits -/

def emissionsOf (e : Emitter) : Action → List Emission
  | .emit draft =>
    match draft.fillIn e.offsetOf e.addressOf with
    | .ok i => [⟨e.offset, draft, i⟩]
    | .error _ => []
  | .nops count => Emission.nops e.offset count
  | _ => []

/-- What a run emits, in order. -/
def emissions (e : Emitter) : Source → List Emission
  | [] => []
  | s :: rest =>
    if s.runsIn e.pass then
      match e.perform s.action with
      | .ok (e', _) => e.emissionsOf s.action ++ e'.emissions rest
      | .error _ => if s.lenient then e.emissions rest else []
    else e.emissions rest

/-- What a run that emits `es` does to an emitter. Labels stay, and a new one is placed between two
emissions; in the emit pass it is not placed elsewhere than the layout pass had it, and what is
emitted is what was written, with the labels where the layout pass had them. -/
structure Grows (e : Emitter) (es : List Emission) (e' : Emitter) : Prop where
  pass : e'.pass = e.pass
  code : e'.code.toList = e.code.toList ++ Emission.code es
  laidOut : Emission.LaidOut e.offset es
  kept : ∀ name q, e.labels.get? name = some q → e'.labels.get? name = some q
  placed : ∀ name q, e'.labels.get? name = some q → e.labels.get? name = some q ∨
    (∃ before after, es = before ++ after ∧ q = e.offset + (Emission.code before).length) ∧
      e.Unmoved name q
  becomes : ∀ known, e.pass = .emit known → ∀ x ∈ es, x.draft.Becomes known x.position x.instr

namespace Grows

theorem refl (e : Emitter) : Grows e [] e where
  pass := rfl
  code := (List.append_nil _).symm
  laidOut := trivial
  kept _ _ h := h
  placed _ _ h := .inl h
  becomes _ _ _ h := nomatch h

theorem offset {es : List Emission} (h : Grows e es e') :
    e'.offset = e.offset + (Emission.code es).length := by
  rw [offset_eq, h.code, List.length_append, offset_eq]

theorem trans {es fs : List Emission} (h : Grows e es e₁) (h' : Grows e₁ fs e') :
    Grows e (es ++ fs) e' where
  pass := h'.pass.trans h.pass
  code := by rw [h'.code, h.code, Emission.code_append, List.append_assoc]
  laidOut := Emission.laidOut_append h.laidOut (h.offset ▸ h'.laidOut)
  kept name q hq := h'.kept name q (h.kept name q hq)
  placed := by
    intro name q hq
    rcases h'.placed name q hq with hq | ⟨⟨before, after, rfl, rfl⟩, hmoved⟩
    · rcases h.placed name q hq with hq | ⟨⟨before, after, rfl, rfl⟩, hmoved⟩
      · exact .inl hq
      · exact .inr ⟨⟨before, after ++ fs, by rw [List.append_assoc], rfl⟩, hmoved⟩
    · refine .inr ⟨⟨es ++ before, after, by rw [List.append_assoc], ?_⟩, ?_⟩
      · rw [h.offset, Emission.code_append, List.length_append, Nat.add_assoc]
      · intro known first hp
        exact hmoved known first (h.pass.trans hp)
  becomes := by
    intro known hp x hx
    rcases List.mem_append.mp hx with hx | hx
    · exact h.becomes known hp x hx
    · exact h'.becomes known (h.pass.trans hp) x hx

end Grows

theorem grows_of_emit {draft : Draft} {i : Instr}
    (h : draft.fillIn e.offsetOf e.addressOf = .ok i) :
    Grows e [⟨e.offset, draft, i⟩] (e.append i) where
  pass := rfl
  code := by simp [toList_code_append, Emission.code, Instr.encodeAll]
  laidOut := ⟨rfl, trivial⟩
  kept _ _ hq := hq
  placed _ _ hq := .inl hq
  becomes known hp x hx := by
    cases List.mem_singleton.mp hx
    exact becomes_of_fillIn hp h

theorem grows_of_nops (e : Emitter) (count : Nat) :
    Grows e (Emission.nops e.offset count) (e.appendTimes .nop count) := by
  obtain ⟨hpass, hlabels, hcode⟩ := e.appendTimes_eq .nop count
  refine ⟨hpass, ?_, Emission.laidOut_nops _ _, ?_, ?_, ?_⟩
  · rw [hcode, Emission.code_nops]
  · intro name q hq
    rw [hlabels]
    exact hq
  · intro name q hq
    rw [hlabels] at hq
    exact .inl hq
  · intro known _ x hx
    obtain ⟨position, _, rfl⟩ := List.mem_map.mp hx
    exact ⟨rfl, .nil⟩

theorem grows_of_place {name : String} (hnew : e.labels.get? name = none)
    (hmoved : e.Unmoved name e.offset) :
    Grows e [] { e with labels := e.labels.insert name e.offset } where
  pass := rfl
  code := (List.append_nil _).symm
  laidOut := trivial
  kept label q hq := by
    rw [Labels.get?_insert]
    by_cases hlabel : label = name
    · rw [hlabel, hnew] at hq
      cases hq
    · rw [if_neg hlabel]
      exact hq
  placed label q hq := by
    rw [Labels.get?_insert] at hq
    by_cases hlabel : label = name
    · rw [if_pos hlabel] at hq
      cases hq
      refine .inr ⟨⟨[], [], rfl, rfl⟩, ?_⟩
      rw [hlabel]
      exact hmoved
    · rw [if_neg hlabel] at hq
      exact .inl hq
  becomes _ _ _ hx := nomatch hx

theorem grows_of_step {a : Action} (h : Step e a e') : Grows e (e.emissionsOf a) e' := by
  cases h with
  | emit hi =>
    simp only [emissionsOf, hi]
    exact grows_of_emit hi
  | nops count => exact grows_of_nops e count
  | place hnew hmoved => exact grows_of_place hnew hmoved
  | branchOffset _ => exact Grows.refl e
  | codeAddress _ => exact Grows.refl e

/-- What a run does, by induction on the program: a statement that is skipped or that fails without
ending the run does nothing. -/
theorem grows_of_run {source : Source} (h : e.run source = .ok e') :
    Grows e (e.emissions source) e' := by
  induction source generalizing e with
  | nil =>
    cases h
    exact Grows.refl e'
  | cons s rest ih =>
    unfold run at h
    unfold emissions
    split at h
    · rename_i hruns
      rw [if_pos hruns]
      cases hperform : e.perform s.action with
      | ok outcome =>
        obtain ⟨e₁, answer⟩ := outcome
        simp only [hperform] at h ⊢
        exact (grows_of_step (step_of_perform hperform)).trans (ih h)
      | error err =>
        simp only [hperform] at h ⊢
        split at h
        · rename_i hlenient
          rw [if_pos hlenient]
          exact ih h
        · cases h
    · rename_i hskips
      rw [if_neg hskips]
      exact ih h

end Emitter

namespace Source

/-! ## Both passes -/

/-- What the emit pass emits behind a layout pass. -/
def emitted (source : Source) (first : Emitter) : List Emission :=
  ({ pass := .emit first.labels } : Emitter).emissions source

/-- What it takes to be assembled: both passes end, they agree on the length, and the emit pass
places all labels that the layout pass places. -/
theorem assemble_eq_ok {source : Source} {out : Assembled} :
    source.assemble = .ok out ↔ ∃ first second : Emitter, source.layout = .ok first ∧
      ({ pass := .emit first.labels } : Emitter).run source = .ok second ∧
      second.offset = first.offset ∧
      (∀ name, first.labels.contains name = true → second.labels.contains name = true) ∧
      out = ⟨second.code.toList, second.labels⟩ := by
  have hfind : ∀ first second : Emitter,
      (first.labels.entries.find? fun entry => !second.labels.contains entry.1) = none ↔
        ∀ name, first.labels.contains name = true → second.labels.contains name = true := by
    intro first second
    rw [List.find?_eq_none]
    constructor
    · intro h name hname
      obtain ⟨q, hq⟩ := Labels.contains_iff.mp hname
      simpa using h (name, q) hq
    · intro h entry hentry
      simpa using h entry.1 (Labels.contains_iff.mpr ⟨entry.2, hentry⟩)
  constructor
  · intro h
    obtain ⟨first, hlayout, h⟩ := Except.bind_eq_ok.mp h
    obtain ⟨second, hrun, h⟩ := Except.bind_eq_ok.mp h
    obtain ⟨hlength, h⟩ := Except.check_eq_ok.mp h
    split at h
    · cases h
    · rename_i hnone
      cases h
      exact ⟨first, second, hlayout, hrun, Classical.not_not.mp hlength,
        (hfind first second).mp hnone, rfl⟩
  · rintro ⟨first, second, hlayout, hrun, hlength, hplaced, rfl⟩
    refine Except.bind_eq_ok.mpr ⟨first, hlayout, Except.bind_eq_ok.mpr ⟨second, hrun, ?_⟩⟩
    refine Except.check_eq_ok.mpr ⟨fun h => h hlength, ?_⟩
    rw [(hfind first second).mpr hplaced]
    rfl

/-- An assembled program refers to its labels where they are, whatever its passes do and whatever
errors it passes over. Its code is what the emit pass emits. Each instruction stands at its position
and is what was written there, with the distances and addresses of the labels of the result. The
labels of the layout pass are all there, where that pass had them, and each label stands between two
instructions or at an end. The code is as long as in the layout pass. -/
theorem an_assembled_program_refers_to_its_labels {source : Source} {out : Assembled}
    (h : source.assemble = .ok out) :
    ∃ first, source.layout = .ok first ∧
      out.code = Emission.code (source.emitted first) ∧
      (∀ x ∈ source.emitted first, Instr.decodeAt out.code x.position = .ok x.instr ∧
        x.draft.Becomes out.labels x.position x.instr) ∧
      (∀ name q, first.labels.get? name = some q → out.labels.get? name = some q) ∧
      (∀ name q, out.labels.get? name = some q →
        ∃ before after, source.emitted first = before ++ after ∧
          q = (Emission.code before).length) ∧
      out.code.length = first.offset := by
  obtain ⟨first, second, hlayout, hrun, hlength, hplaced, rfl⟩ := assemble_eq_ok.mp h
  have hgrows := Emitter.grows_of_run hrun
  have hcode : second.code.toList = Emission.code (source.emitted first) := hgrows.code
  have hle : ∀ name q, first.labels.get? name = some q → second.labels.get? name = some q := by
    intro name q hq
    obtain ⟨q', hq'⟩ := Option.isSome_iff_exists.mp (hplaced name (Labels.contains_of_get? hq))
    rcases hgrows.placed name q' hq' with hempty | ⟨_, hmoved⟩
    · cases hempty
    · rw [hmoved first.labels q rfl hq]
      exact hq'
  refine ⟨first, hlayout, hcode, ?_, hle, ?_, ?_⟩
  · intro x hx
    refine ⟨?_, (hgrows.becomes first.labels rfl x hx).mono hle⟩
    obtain ⟨before, after, hsplit⟩ := List.append_of_mem hx
    have hposition : x.position = (Emission.code before).length := by
      have hlaid := hgrows.laidOut
      rw [show Emitter.emissions _ source = before ++ x :: after from hsplit] at hlaid
      rw [hlaid.position_eq]
      exact Nat.zero_add _
    show Instr.decodeAt second.code.toList x.position = .ok x.instr
    rw [hcode, hsplit, hposition, Emission.code_append]
    exact Instr.decodeAt_append _ _ _
  · intro name q hq
    rcases hgrows.placed name q hq with hempty | ⟨⟨before, after, hsplit, hq⟩, _⟩
    · cases hempty
    · exact ⟨before, after, hsplit, hq.trans (Nat.zero_add _)⟩
  · rw [← hlength, Emitter.offset_eq]

/-- A program that goes on after errors and whose passes differ: it places a label twice, emits a
stop in place of a restart mark, jumps to a label that is nowhere, and places a label in one pass
only. -/
def wayward : Source := [
  { action := .place "top" },
  { action := .emit (.branchZero 0 (.label "end")) },
  { action := .place "top", lenient := true },
  { action := .emit .setRestart, only := some .layout },
  { action := .emit .stop, only := some .emit },
  { action := .emit (.jump (.label "nowhere")), only := some .emit, lenient := true },
  { action := .emit (.jump (.label "top")) },
  { action := .place "end" },
  { action := .place "late", only := some .emit }]

theorem an_assembled_program_refers_to_its_labels_after_errors :
    ∃ first, wayward.layout = .ok first ∧
      wayward.emitted first = [⟨0, .branchZero 0 (.label "end"), .branchZero 0 12⟩,
        ⟨6, .stop, .stop⟩, ⟨7, .jump (.label "top"), .jump 0⟩] ∧
      ∃ out, wayward.assemble = .ok out ∧
        out.labels.entries = [("end", 12), ("late", 12), ("top", 0)] ∧
        ∀ x ∈ wayward.emitted first, x.draft.Becomes out.labels x.position x.instr := by
  have h : wayward.assemble = .ok ⟨[0x1b, 0, 0, 0, 0, 12, 0x29, 0x1a, 0, 0, 0, 0],
      { entries := [("end", 12), ("late", 12), ("top", 0)] }⟩ := rfl
  obtain ⟨first, hlayout, _, hemitted, _⟩ := an_assembled_program_refers_to_its_labels h
  refine ⟨first, hlayout, ?_, _, h, rfl, fun x hx => (hemitted x hx).2⟩
  cases hlayout
  rfl

end Source

end Pledge
