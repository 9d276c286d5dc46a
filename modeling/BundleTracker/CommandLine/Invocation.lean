import BundleTracker.CommandLine.Arguments

/-!
# Invocations

What the program is asked to do: look for deposits in a script or in a
transaction, print the parameters, or replay a trace. The parameters come from
a file if one is named, by an argument or else by the environment.
-/

namespace BundleTracker
namespace CommandLine

inductive Command
  | depositInScript (hex : String)
  | depositsInTransaction (hex : String)
  | params
  | replay (trace : String) (printEvents : Bool)
  deriving DecidableEq

structure Invocation where
  command : Command
  paramsFile : Option String
  /-- Whether a detailed log is asked for. -/
  verbose : Bool
  deriving DecidableEq

/-- The variable of the environment that names the file with the parameters. -/
def paramsVariable : String := "SCDB_PARAMS"

/-- The settings that may stand before the name of the command. -/
def globalSettings : List Setting := [.verbose, .help, .version]

inductive CommandName
  | deposit
  | params
  | replay
  deriving DecidableEq

namespace CommandName

def ofText? : String → Option CommandName
  | "deposit" => some .deposit
  | "params" => some .params
  | "replay" => some .replay
  | _ => none

/-- The settings of a command. -/
def known : CommandName → List Setting
  | .deposit => [.script, .transaction, .params] ++ globalSettings
  | .params => [.params] ++ globalSettings
  | .replay => [.trace, .events, .params] ++ globalSettings

/-- The command that these settings complete. -/
def complete (s : Settings) : CommandName → Except Refusal Command
  | .deposit =>
    match s.value? .script, s.value? .transaction with
    | some _, some _ => .error .conflict
    | some hex, none => .ok (.depositInScript hex)
    | none, some hex => .ok (.depositsInTransaction hex)
    | none, none => .error .missingArgument
  | .params => .ok .params
  | .replay =>
    match s.value? .trace with
    | some trace => .ok (.replay trace (s.has .events))
    | none => .error .missingArgument

/-- Reads the arguments after the name of a command; `paramsFile` is named by the environment. -/
def read (name : CommandName) (paramsFile : Option String) (args : List String) :
    Except Refusal Invocation := do
  let (s, unread) ← ({} : Settings).takeAll name.known args
  if unread ≠ [] then throw .unknownArgument
  let s ← s.settle
  let s ← match paramsFile with
    | some path => if s.has .params then pure s else s.make .params path
    | none => pure s
  return ⟨← name.complete s, s.value? .params, s.has .verbose⟩

end CommandName

/-- The command under which help on the others is found. -/
def helpName : String := "help"

def isCommandName (name : String) : Bool :=
  name == helpName || (CommandName.ofText? name).isSome

/-- What asking for help on the named commands comes to. -/
def helpOn : List String → Refusal
  | [] => .help
  | [name] => if isCommandName name then .help else .unknownCommand
  | _ => .unknownCommand

/-- Reads all arguments; `paramsFile` is named by the environment. -/
def Invocation.read (paramsFile : Option String) (args : List String) :
    Except Refusal Invocation := do
  let (s, unread) ← ({} : Settings).takeAll globalSettings args
  match unread with
  | [] => throw (if s.made.isEmpty then .nothingGiven else .missingCommand)
  | name :: rest =>
    if s.operandsOnly then
      throw (if isCommandName name then .unknownArgument else .unknownCommand)
    if name = helpName then throw (helpOn rest)
    match CommandName.ofText? name with
    | none => throw .unknownCommand
    | some command =>
      let i ← command.read paramsFile rest
      return { i with verbose := s.has .verbose || i.verbose }

end CommandLine
end BundleTracker
