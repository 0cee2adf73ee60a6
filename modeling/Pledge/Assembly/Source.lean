-- Source programs of the assembler: statements that emit instructions, place
-- labels and ask for them. A program runs once in each pass, and both runs
-- have to agree.
import Pledge.Assembly.Emitter

namespace Pledge

/-- What a statement does. -/
inductive Action where
  | emit (draft : Draft)
  /-- Emits an instruction without effect a number of times. -/
  | nops (count : Nat)
  | place (label : String)
  | branchOffset (label : String)
  | codeAddress (label : String)
  deriving DecidableEq, Repr

inductive PassName where
  | layout
  | emit
  deriving DecidableEq, Repr

def Pass.name : Pass → PassName
  | .layout => .layout
  | .emit _ => .emit

structure Statement where
  action : Action
  /-- The only pass in which the statement counts. -/
  only : Option PassName := none
  /-- Whether the program goes on where the statement fails. -/
  lenient : Bool := false
  deriving DecidableEq, Repr

namespace Statement

/-- Whether the statement counts in a pass. -/
def runsIn (s : Statement) (pass : Pass) : Bool :=
  match s.only with
  | none => true
  | some name => name == pass.name

end Statement

abbrev Source := List Statement

namespace Emitter

/-- Performs an action. A question about a label has an answer. -/
def perform (e : Emitter) : Action → Except ProgramError (Emitter × Option Int)
  | .emit draft => do return (← e.emit draft, none)
  | .nops count => return (e.appendTimes .nop count, none)
  | .place label => do return (← e.place label, none)
  | .branchOffset label => do return (e, some (← e.branchOffset label).toInt)
  | .codeAddress label => do return (e, some (← e.codeAddress label).toNat)

/-- Runs a source program. A statement that fails changes nothing, and ends the program unless it
is lenient. -/
def run (e : Emitter) : Source → Except ProgramError Emitter
  | [] => .ok e
  | s :: rest =>
    if s.runsIn e.pass then
      match e.perform s.action with
      | .ok (e', _) => e'.run rest
      | .error err => if s.lenient then e.run rest else .error err
    else e.run rest

/-- What a statement did: the pass, its place in the program, the offset behind it, and the answer
or the error. -/
structure Event where
  pass : PassName
  index : Nat
  offset : Nat
  answer : Except ProgramError (Option Int)

/-- What each statement of a run does. The first one has number `index`. -/
def events (e : Emitter) (index : Nat) : Source → List Event
  | [] => []
  | s :: rest =>
    if s.runsIn e.pass then
      match e.perform s.action with
      | .ok (e', answer) =>
        ⟨e.pass.name, index, e'.offset, .ok answer⟩ :: e'.events (index + 1) rest
      | .error err =>
        ⟨e.pass.name, index, e.offset, .error err⟩ ::
          if s.lenient then e.events (index + 1) rest else []
    else e.events (index + 1) rest

end Emitter

structure Assembled where
  code : Bytes
  labels : Labels
  deriving DecidableEq, Repr

namespace Source

/-- The run of the layout pass. -/
def layout (source : Source) : Except ProgramError Emitter :=
  ({ pass := .layout } : Emitter).run source

/-- Assembles a program in two passes. They have to give code of the same length, and the emit pass
has to place every label that the layout pass placed. -/
def assemble (source : Source) : Except ProgramError Assembled := do
  let first ← source.layout
  let second ← ({ pass := .emit first.labels } : Emitter).run source
  if second.offset ≠ first.offset then
    throw (.lengthDiverged first.offset second.offset)
  match first.labels.entries.find? fun entry => !second.labels.contains entry.1 with
  | some (label, _) => throw (.undefinedLabel label)
  | none => return ⟨second.code.toList, second.labels⟩

/-- What each statement does in both passes, up to the one that ends the program. -/
def events (source : Source) : List Emitter.Event :=
  ({ pass := .layout } : Emitter).events 0 source ++
    match source.layout with
    | .ok first => ({ pass := .emit first.labels } : Emitter).events 0 source
    | .error _ => []

end Source

end Pledge
