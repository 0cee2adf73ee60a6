-- Log lines: three levels, a least level below which nothing is written, and
-- the shape of a line.
import Pledge.Instant
import Pledge.Text.Characters

namespace Pledge

inductive Level where
  | info
  | warn
  | error
  deriving DecidableEq, Repr

/-- A text that names no level, trimmed and in lower case. -/
structure UnknownLevel where
  form : String
  deriving DecidableEq, Repr

def UnknownLevel.message (e : UnknownLevel) : String := s!"unknown log level '{e.form}'"

namespace Level

/-- The levels, lowest first. -/
def all : List Level := [info, warn, error]

def number : Level → Nat
  | info => 1
  | warn => 2
  | error => 3

/-- The name of a level in a line. -/
def name : Level → String
  | info => "INFO"
  | warn => "WARN"
  | error => "ERROR"

/-- The mark of a level in front of a message. -/
def mark (l : Level) : String := s!"[{l.name}]"

/-- Reads a level. Blanks around it do not count, nor does the case of its letters. -/
def parse (text : String) : Except UnknownLevel Level :=
  let form := String.ofList ((Text.trim text.toList).map Char.toLower)
  if form = "info" then .ok info
  else if form = "warn" ∨ form = "warning" then .ok warn
  else if form = "error" then .ok error
  else .error ⟨form⟩

end Level

/-- What is said besides the output of a program: a text as it is, or a message for the log. -/
inductive Notice where
  | text (text : String)
  | message (level : Level) (text : String)
  deriving DecidableEq, Repr

/-- How messages are written. -/
structure Logger where
  /-- Messages below this level are dropped. -/
  least : Level
  /-- Whether the time stands in front of each line. -/
  timed : Bool
  coloured : Bool
  deriving DecidableEq, Repr

namespace Logger

/-- Whether messages of a level are written. -/
def enabled (g : Logger) (l : Level) : Bool := g.least.number ≤ l.number

/-- A control sequence of the terminal. -/
def escape (code : String) : String := s!"\x1b[{code}m"

/-- What switches the colour of a level on: warnings are bold and yellow, errors bold and red. -/
def colour : Level → String
  | .info => ""
  | .warn => escape "1" ++ escape "33"
  | .error => escape "1" ++ escape "31"

/-- The line of a message, without colour. -/
def plainLine (g : Logger) (now : Instant) (l : Level) (text : String) : String :=
  let time := if g.timed then now.text ++ " " else ""
  s!"{time}{l.mark} {text}\n"

def line (g : Logger) (now : Instant) (l : Level) (text : String) : String :=
  if g.coloured then escape "0" ++ colour l ++ g.plainLine now l text ++ escape "0"
  else g.plainLine now l text

/-- What is written for a notice. The clock is looked at for each message that is not dropped. -/
def say {m : Type → Type} [Monad m] (g : Logger) (now : m Instant) : Notice → m String
  | .text text => return text
  | .message l text => do
    if g.enabled l then return g.line (← now) l text
    else return ""

/-- A look at a clock that is known by its readings. The state counts the looks. -/
def tick (clock : Nat → Instant) : StateM Nat Instant := modifyGet fun n => (clock n, n + 1)

/-- What is written for notices, one after the other. -/
def written (g : Logger) (clock : Nat → Instant) (notices : List Notice) : String :=
  String.join ((notices.mapM (g.say (tick clock))).run 0).run.1

end Logger

end Pledge
