-- The terms of a campaign: how long it takes donations, how much it wants,
-- and who is paid if it comes together.
import Pledge.Address
import Pledge.Amount
import Pledge.ProgramError

namespace Pledge.Campaign

/-- The numbers of a campaign that have bounds. -/
inductive Field where
  | window
  | goal
  deriving DecidableEq, Repr

/-- The name of a field in messages. -/
def Field.name : Field → String
  | window => "window_minutes"
  | goal => "goal_amount"

/-- Why a campaign cannot be compiled. -/
inductive Error where
  | outOfRange (field : Field) (value least most : Word)
  | invalidAwardee (text : String) (reason : Address.Error)
  /-- The script itself is wrong, whatever the terms. -/
  | internal (reason : ProgramError)
  deriving DecidableEq, Repr

namespace Error

def message : Error → String
  | outOfRange field value least most =>
    s!"{field.name} must be between {least.toInt} and {most.toInt}, got {value.toInt}"
  | invalidAwardee text reason => s!"invalid awardee address '{text}': {reason.message}"
  | internal reason => s!"internal assembly error: {reason.message}"

/-- Whether the terms are to blame. -/
def isUserError : Error → Bool
  | internal _ => false
  | _ => true

/-- The error behind this one. -/
def source? : Error → Option ProgramError
  | internal reason => some reason
  | _ => none

end Error

/-- The shortest window, in minutes. -/
def minWindow : Word := 10

/-- The longest window: thirty days, in minutes. -/
def maxWindow : Word := 43200

/-- The smallest goal: 0.01, in units. -/
def minGoal : Word := 1000000

/-- The largest goal: 1,000,000, in units. -/
def maxGoal : Word := 100000000000000

/-- The terms of a campaign, within their bounds. -/
structure Terms where
  window : Word
  goal : Amount
  awardee : Address
  window_bounds : minWindow ≤ window ∧ window ≤ maxWindow
  goal_bounds : minGoal ≤ goal.units ∧ goal.units ≤ maxGoal
  deriving DecidableEq, Repr

def checkRange (field : Field) (value least most : Word) :
    Except Error (PLift (least ≤ value ∧ value ≤ most)) :=
  if h : least ≤ value ∧ value ≤ most then .ok ⟨h⟩
  else .error (.outOfRange field value least most)

namespace Terms

/-- Checks the bounds, the window first. -/
def check (window : Word) (goal : Amount) (awardee : Address) : Except Error Terms := do
  let ⟨hw⟩ ← checkRange .window window minWindow maxWindow
  let ⟨hg⟩ ← checkRange .goal goal.units minGoal maxGoal
  return ⟨window, goal, awardee, hw, hg⟩

/-- Checks terms whose awardee is a text: first the bounds, then the address. The bounds are checked
again with the terms. -/
def ofText (window goal : Word) (awardee : String) : Except Error Terms := do
  let _ ← checkRange .window window minWindow maxWindow
  let _ ← checkRange .goal goal minGoal maxGoal
  let address ← (Address.parse awardee).mapError (Error.invalidAwardee awardee)
  check window ⟨goal⟩ address

end Terms

end Pledge.Campaign
