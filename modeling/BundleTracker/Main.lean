import BundleTracker.CommandLine.Outcome

/-!
# The program

Reads the arguments and the environment, carries out the invocation, and prints
what comes of it.
-/

namespace BundleTracker
namespace CommandLine

/-- What is shown when there is nothing to carry out. -/
def Refusal.text : Refusal → String
  | .help | .nothingGiven =>
    "Inspect sidechain deposits and replay traces of sidechain bundles\n\n" ++
      "Usage: scdb-cli [-v] deposit (--script <HEX> | --tx <HEX>) [--params <FILE>]\n" ++
      "       scdb-cli [-v] params [--params <FILE>]\n" ++
      "       scdb-cli [-v] replay <TRACE> [--events] [--params <FILE>]"
  | .version => "scdb-cli 0.1.0"
  | .missingCommand => "error: a command is required"
  | .unknownCommand => "error: unrecognized command"
  | .unknownArgument => "error: unexpected argument"
  | .missingArgument => "error: a required argument is missing"
  | .conflict => "error: an argument cannot be used with another or twice"
  | .invalidValue => "error: a value is missing or empty"
  | .unexpectedValue => "error: a value is given to a flag"

/-- The text of a file, if it can be read. -/
def readFile (path : String) : IO (Option String) := do
  try
    return some (← IO.FS.readFile path)
  catch _ => return none

/-- Prints an outcome, and says whether it is a success. -/
def report (outcome : Outcome) : IO Bool := do
  IO.print outcome.printed
  match outcome.failure with
  | none => return true
  | some failure =>
    IO.eprintln ("Error: " ++ failure.message)
    if let some cause := failure.cause? then
      IO.eprintln ("Caused by: " ++ cause.message)
    return false

end CommandLine
end BundleTracker

open BundleTracker.CommandLine in
def main (args : List String) : IO UInt32 := do
  match Invocation.read (← IO.getEnv paramsVariable) args with
  | .error refusal =>
    if refusal.isAnswer then IO.println refusal.text else IO.eprintln refusal.text
    return refusal.exitCode
  | .ok invocation => return if ← report (← invocation.run readFile) then 0 else 1
