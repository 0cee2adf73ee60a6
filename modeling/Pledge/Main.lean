-- The program: looks at the environment, lets the command line answer the
-- arguments, and writes the answer. The clock is looked at line by line.
import Pledge.CommandLine
import Std.Time.DateTime.Timestamp

def Pledge.Instant.now : IO Pledge.Instant := do
  return ⟨(← Std.Time.Timestamp.now).toMillisecondsSinceUnixEpoch.toInt.toNat⟩

open Pledge.CommandLine in
def main (args : List String) : IO UInt32 := do
  let settings : Settings := {
    -- The arguments begin behind the name of the program.
    program := none
    logLevel := ← IO.getEnv "CROWDFUND_LOG"
    logTimestamps := ← IO.getEnv "CROWDFUND_LOG_TIMESTAMPS"
    terminal := ← IO.getEnv "TERM"
    noColour := ← IO.getEnv "NO_COLOR" }
  let (log, answer) := settings.answer args
  for notice in answer.notices do
    IO.eprint (← log.say Pledge.Instant.now notice)
  IO.print answer.out
  return answer.exit
