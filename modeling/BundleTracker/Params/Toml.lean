import BundleTracker.Params.Document
import BundleTracker.Text.Toml.Parser
import BundleTracker.Text.Toml.Printer

/-!
# Parameters in TOML

A text is read as a whole first, then its fields, and then the parameters are
checked. Only some faults have a text of their own.
-/

namespace BundleTracker

/-- Why a text does not hold valid parameters. -/
inductive ParamsTextError
  | malformed
  | unreadable (fault : Fault ParamsCause)
  | invalid (e : ParamsError)
  deriving DecidableEq

/-- The text of an error, if it has one. -/
def ParamsTextError.message? : ParamsTextError → Option String
  | .malformed => none
  | .unreadable .shape => none
  | .unreadable (.missing field) => some ("missing field \x60" ++ field ++ "\x60")
  | .unreadable (.refused cause) => some cause.message
  | .invalid e => some e.message

namespace Params

/-- The valid parameters that a TOML text holds. -/
def ofToml (text : String) : Except ParamsTextError Params :=
  match Toml.read? text with
  | none => .error .malformed
  | some d =>
    match read true d with
    | .error fault => .error (.unreadable fault)
    | .ok p =>
      match p.check with
      | .error e => .error (.invalid e)
      | .ok () => .ok p

/-- The TOML text of parameters, if their integers can be written. -/
def toToml? (p : Params) : Option String := Toml.write? p.toDatum

end Params

end BundleTracker
