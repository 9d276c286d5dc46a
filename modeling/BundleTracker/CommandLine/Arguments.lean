/-!
# Arguments

How the arguments of a command are taken in, one after the other, into the
settings that the command knows. A long option follows two hyphens and has its
value after an equals sign or as the next argument; short ones are flags and
may share a hyphen. After an argument of two hyphens alone there are only
operands. Each setting is made once. A value that is an argument of its own
takes effect when the next setting is begun, so an argument that no setting
knows is found first.
-/

namespace BundleTracker
namespace CommandLine

/-- Why the arguments do not say what to do. -/
inductive Refusal
  /-- Help was asked for. -/
  | help
  /-- The version was asked for. -/
  | version
  | nothingGiven
  | missingCommand
  | unknownCommand
  | unknownArgument
  | missingArgument
  | conflict
  | invalidValue
  | unexpectedValue
  deriving DecidableEq

/-- Whether the arguments asked for nothing else. -/
def Refusal.isAnswer : Refusal → Bool
  | .help | .version => true
  | _ => false

def Refusal.exitCode (r : Refusal) : UInt32 := if r.isAnswer then 0 else 2

/-- What an argument can set. -/
inductive Setting
  | help
  | version
  | verbose
  | events
  | script
  | transaction
  | params
  /-- The operand of a replay. -/
  | trace
  deriving DecidableEq

namespace Setting

def long? : Setting → Option String
  | .help => some "help"
  | .version => some "version"
  | .verbose => some "verbose"
  | .events => some "events"
  | .script => some "script"
  | .transaction => some "tx"
  | .params => some "params"
  | .trace => none

def short? : Setting → Option Char
  | .help => some 'h'
  | .version => some 'V'
  | .verbose => some 'v'
  | _ => none

def takesValue : Setting → Bool
  | .script | .transaction | .params | .trace => true
  | _ => false

/-- Whether the value names a file, and so is not empty. -/
def isPath : Setting → Bool
  | .params | .trace => true
  | _ => false

end Setting

/-- What the arguments taken in so far have set. -/
structure Settings where
  made : List (Setting × String) := []
  /-- A setting that is begun, with its value once that is there. -/
  pending : Option (Setting × Option String) := none
  operandsOnly : Bool := false
  deriving DecidableEq

namespace Settings

def value? (s : Settings) (x : Setting) : Option String := s.made.lookup x

def has (s : Settings) (x : Setting) : Bool := (s.value? x).isSome

/-- Makes a setting, once. -/
def make (s : Settings) (x : Setting) (value : String) : Except Refusal Settings :=
  if s.has x then .error .conflict
  else if x.isPath && value.isEmpty then .error .invalidValue
  else .ok { s with made := s.made ++ [(x, value)] }

/-- Makes the setting that is begun. -/
def settle (s : Settings) : Except Refusal Settings :=
  match s.pending with
  | none => .ok s
  | some (_, none) => .error .invalidValue
  | some (x, some value) => { s with pending := none }.make x value

/-- Begins a setting. -/
def start (s : Settings) (x : Setting) (value : Option String) : Except Refusal Settings := do
  return { ← s.settle with pending := some (x, value) }

/-- Makes a setting without a value. Help and version end the reading. -/
def flag (s : Settings) (x : Setting) : Except Refusal Settings := do
  let s ← s.settle
  match x with
  | .help => .error .help
  | .version => .error .version
  | _ => s.make x ""

variable (known : List Setting)

/-- Takes the part of an argument that follows two hyphens. -/
def takeLong (s : Settings) (body : List Char) : Except Refusal Settings :=
  let name := String.ofList (body.takeWhile (· != '='))
  match known.find? (·.long? == some name), body.dropWhile (· != '=') with
  | none, _ => .error .unknownArgument
  | some x, [] => if x.takesValue then s.start x none else s.flag x
  | some x, _ :: value =>
    if x.takesValue then do (← s.settle).make x (String.ofList value)
    else .error .unexpectedValue

/-- Takes the part of an argument that follows one hyphen. -/
def takeShort (s : Settings) (body : List Char) : Except Refusal Settings :=
  body.foldlM (fun s c =>
    match known.find? (·.short? == some c) with
    | none => .error .unknownArgument
    | some x => s.flag x) s

/-- Takes an operand, if there is a place for it. -/
def takeOperand? (s : Settings) (arg : String) : Option (Except Refusal Settings) :=
  let isTaken := s.has .trace || s.pending.any (·.1 == .trace)
  if known.contains .trace && !isTaken then some (s.start .trace (some arg)) else none

/-- Takes one argument, unless it is an operand that has no place. -/
def take? (s : Settings) (arg : String) : Option (Except Refusal Settings) :=
  if s.operandsOnly then s.takeOperand? known arg
  else
    match arg.toList, s.pending with
    | ['-', '-'], _ => some (.ok { s with operandsOnly := true })
    | '-' :: '-' :: body, _ => some (s.takeLong known body)
    | '-' :: c :: body, _ => some (s.takeShort known (c :: body))
    | _, some (x, none) => some (.ok { s with pending := some (x, some arg) })
    | _, _ => s.takeOperand? known arg

/-- Takes arguments up to an operand that has no place; returns it with what follows. -/
def takeAll (s : Settings) : List String → Except Refusal (Settings × List String)
  | [] => .ok (s, [])
  | arg :: rest =>
    match s.take? known arg with
    | none => .ok (s, arg :: rest)
    | some (.error refusal) => .error refusal
    | some (.ok s) => takeAll s rest

end Settings

end CommandLine
end BundleTracker
