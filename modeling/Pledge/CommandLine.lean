-- The command line, as a function of the arguments and the environment. It
-- either compiles a campaign or shows what is in a container.
import Pledge.Campaign.Compile
import Pledge.Listing
import Pledge.Log

namespace Pledge.CommandLine

/-- What a run answers: its exit status, its output, and what it says besides. -/
structure Answer where
  exit : UInt32
  out : String
  notices : List Notice
  deriving DecidableEq, Repr

/-- What a run writes, and its exit status. -/
structure Outcome where
  exit : UInt32
  out : String
  err : String
  deriving DecidableEq, Repr

/-- What the program finds around it: the name by which it was called, if it is known, and the
variables it looks at. -/
structure Settings where
  program : Option String
  logLevel : Option String
  logTimestamps : Option String
  terminal : Option String
  noColour : Option String
  deriving DecidableEq, Repr

/-- The settings of a run, and its clock by the number of looks at it. -/
structure Environment extends Settings where
  clock : Nat → Instant

namespace Settings

/-- The name of the program in its help text. -/
def name (s : Settings) : String := s.program.getD "crowdfund"

/-- The least level of the log, if it is readable. -/
def level (s : Settings) : Except UnknownLevel Level :=
  match s.logLevel with
  | some text => Level.parse text
  | none => .ok .info

/-- Whether log lines show the time. -/
def showsTime (s : Settings) : Bool :=
  match s.logTimestamps with
  | some text => Text.trim text.toList != ['0']
  | none => true

/-- Whether log lines are coloured: the terminal can do it, and nobody objects. -/
def showsColour (s : Settings) : Bool :=
  match s.terminal with
  | some terminal => terminal != "dumb" && s.noColour.isNone
  | none => false

/-- The logger of a run. A quiet one drops the lowest level only, whatever else was asked for. -/
def logger (s : Settings) (quiet : Bool) : Logger where
  least :=
    if quiet then .warn
    else match s.level with
      | .ok l => l
      | .error _ => .info
  timed := s.showsTime
  coloured := s.showsColour

/-- What is said about an unreadable log level. -/
def levelWarning (s : Settings) : List Notice :=
  match s.level with
  | .ok _ => []
  | .error e => [.message .warn s!"{e.message}, using info"]

end Settings

/-! ## Usage -/

/-- The help text. A blank line ends it. -/
def usage (program : String) : String := Text.unlines [
  "USAGE:",
  s!"    {program} <window-minutes> <goal> <awardee-address> [OPTIONS]",
  s!"    {program} --inspect <base58-creation-bytes>",
  "",
  "ARGS:",
  "    <window-minutes>     Entry window length, 10 to 43200",
  "    <goal>               Funding goal, up to 8 decimals (e.g. 10.4)",
  "    <awardee-address>    Address paid when the goal is reached",
  "",
  "OPTIONS:",
  "    --hex                Print creation bytes as hex instead of Base58",
  "    --disasm             Also print the code listing",
  "    -q, --quiet          Only log warnings and errors",
  "    --inspect <bytes>    Decode Base58 creation bytes and print their contents",
  "    -h, --help           Print this help message",
  "",
  "ENVIRONMENT:",
  "    CROWDFUND_LOG               Minimum log level: info, warn or error",
  "    CROWDFUND_LOG_TIMESTAMPS    Set to 0 to drop timestamps from log lines",
  "",
  "EXAMPLES:",
  s!"    {program} 1440 10.4 QLhKCGi5ZvnS9amYgdA353vzbdbWYBoxD8",
  s!"    {program} 60 0.5 QLhKCGi5ZvnS9amYgdA353vzbdbWYBoxD8 --hex --disasm",
  ""]

/-! ## Arguments -/

inductive Flag where
  | help
  | hex
  | listing
  | quiet
  | inspect
  deriving DecidableEq, Repr

/-- The flag that an argument spells. -/
def Flag.ofText? (argument : String) : Option Flag :=
  if argument = "--help" ∨ argument = "-h" then some .help
  else if argument = "--hex" then some .hex
  else if argument = "--disasm" then some .listing
  else if argument = "--quiet" ∨ argument = "-q" then some .quiet
  else if argument = "--inspect" then some .inspect
  else none

/-- What the arguments ask for. -/
structure Options where
  hex : Bool := false
  listing : Bool := false
  quiet : Bool := false
  /-- The container to show. The last one given counts. -/
  inspect : Option String := none
  positional : List String := []
  deriving DecidableEq, Repr

/-- Why the arguments are not read to their end. -/
inductive Interruption where
  | help
  | missingContainer
  | unexpected (argument : String)
  deriving DecidableEq, Repr

def isFlagLike (argument : String) : Bool := ['-', '-'].isPrefixOf argument.toList

/-- Reads arguments from the left. Flags may stand anywhere; what follows the flag for a container
is its text, whatever it looks like. -/
def scan (o : Options) : List String → Except Interruption Options
  | [] => .ok o
  | argument :: rest =>
    match Flag.ofText? argument with
    | some .help => .error .help
    | some .hex => scan { o with hex := true } rest
    | some .listing => scan { o with listing := true } rest
    | some .quiet => scan { o with quiet := true } rest
    | some .inspect =>
      match rest with
      | [] => .error .missingContainer
      | text :: rest => scan { o with inspect := some text } rest
    | none =>
      if isFlagLike argument then .error (.unexpected argument)
      else scan { o with positional := o.positional ++ [argument] } rest

/-! ## Compiling a campaign -/

/-- Why the arguments give no campaign. -/
inductive InputError where
  | window (text : String) (reason : Text.IntegerError)
  | goal (text : String) (reason : Amount.Error)
  | terms (reason : Campaign.Error)
  deriving DecidableEq, Repr

def InputError.message : InputError → String
  | window text reason => s!"invalid window '{text}': {reason.message}"
  | goal text reason => s!"invalid goal '{text}': {reason.message}"
  | terms reason => reason.message

def readTerms (window goal awardee : String) : Except InputError Campaign.Terms := do
  let minutes ← (Text.readInteger window).mapError (InputError.window window)
  let amount ← (Amount.parse goal).mapError (InputError.goal goal)
  (Campaign.Terms.ofText minutes amount.units awardee).mapError InputError.terms

/-- The messages about a compiled campaign. -/
def summary (c : Campaign.Compiled) : List String := [
  s!"Window {c.terms.window.toInt} minutes, goal {c.terms.goal.text}, " ++
    s!"awardee {c.terms.awardee.text}",
  s!"Code {c.assembled.code.length} bytes, data {c.data.length} bytes ({c.layout.count} slots)",
  s!"Code hash {Text.hexOfBytes c.codeHash.bytes}"]

def containerText (hex : Bool) (c : Campaign.Compiled) : String :=
  if hex then Text.hexOfBytes c.bytes else c.container.text

def present (o : Options) (c : Campaign.Compiled) : Answer :=
  let notices := (summary c).map (.message .info)
  let out := Text.unlines ["Creation bytes:", containerText o.hex c]
  if o.listing then
    match Listing.withLabels c.assembled.code c.assembled.labels with
    | .ok listing => ⟨0, out ++ "\n" ++ listing, notices⟩
    | .error reason => ⟨1, out, notices ++ [.message .error reason.message]⟩
  else ⟨0, out, notices⟩

/-- The answer to wrong terms: the help text and what is wrong. -/
def usageError (program message : String) : Answer :=
  ⟨1, "", [.text (usage program ++ message ++ "\n")]⟩

def compile (program : String) (o : Options) (window goal awardee : String) : Answer :=
  match readTerms window goal awardee with
  | .error reason => usageError program reason.message
  | .ok terms =>
    match Campaign.build terms with
    | .ok c => present o c
    | .error reason =>
      if reason.isUserError then usageError program reason.message
      else ⟨1, "", [.message .error reason.message]⟩

/-! ## Showing a container -/

/-- A line for each word of data: its slot and its bytes. -/
def dataLines (data : Bytes) : List String :=
  (Wire.wordsOf data).toList.zipIdx.map fun (word, slot) =>
    let label := String.ofList ((toString slot).toList.rightpad 3 ' ')
    s!"@{label} {Text.hexOfBytes (Wire.scalarBytes word)}"

/-- What is shown of a container before its code. -/
def report (c : Container) : List String := [
  s!"version           {c.header.version.toInt}",
  s!"code pages        {c.header.codePages.toInt}",
  s!"data pages        {c.header.dataPages.toInt}",
  s!"call stack pages  {c.header.callStackPages.toInt}",
  s!"user stack pages  {c.header.userStackPages.toInt}",
  s!"min activation    {c.header.minActivation.toInt}",
  s!"code hash         {Text.hexOfBytes c.codeHash.bytes}",
  s!"total size        {Wire.encodedSize c}",
  "",
  "data:"] ++ dataLines c.data

/-- Shows what is in a container. -/
def inspect (text : String) : Answer :=
  match Container.parse text with
  | .error reason => ⟨1, "", [.message .error reason.message]⟩
  | .ok c =>
    let out := Text.unlines (report c)
    match Listing.plain c.code with
    | .ok listing => ⟨0, out ++ "\ncode:\n" ++ listing, []⟩
    | .error reason => ⟨1, out, [.message .error reason.message]⟩

/-! ## Running -/

/-- Does what the options ask for. -/
def perform (program : String) (o : Options) : Answer :=
  match o.inspect, o.positional with
  | some text, [] => inspect text
  | none, [window, goal, awardee] => compile program o window goal awardee
  | _, _ => ⟨2, "", [.text (usage program)]⟩

/-- The answer when the arguments are not read to their end. -/
def interrupted (program : String) : Interruption → Answer
  | .help => ⟨0, "", [.text (usage program)]⟩
  | .missingContainer => ⟨2, "", [.message .error "--inspect requires an argument"]⟩
  | .unexpected argument =>
    ⟨2, "", [.text (s!"Unexpected argument: {argument}\n\n" ++ usage program)]⟩

/-- Answers the arguments, and tells which logger is asked to write the notices. -/
def Settings.answer (s : Settings) (args : List String) : Logger × Answer :=
  match scan {} args with
  | .error why => (s.logger false, interrupted s.name why)
  | .ok o =>
    let a := perform s.name o
    (s.logger o.quiet, { a with notices := s.levelWarning ++ a.notices })

/-- A run in an environment. -/
def run (env : Environment) (args : List String) : Outcome :=
  let answer := env.answer args
  ⟨answer.2.exit, answer.2.out, answer.1.written env.clock answer.2.notices⟩

end Pledge.CommandLine
