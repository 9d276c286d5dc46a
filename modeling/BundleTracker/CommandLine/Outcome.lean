import BundleTracker.Bytes.Hex
import BundleTracker.Chain.Document
import BundleTracker.CommandLine.Invocation
import BundleTracker.Params.Toml
import BundleTracker.Script.Document
import BundleTracker.State.Document
import BundleTracker.Text.Blank
import BundleTracker.Text.Json.Printer
import BundleTracker.Trace
import BundleTracker.Transaction

/-!
# Outcomes

What a command prints and how it fails. The parameters are read before anything
else. A replay that fails has printed its events all the same, but not the
summary. Files are read through a function that is passed in.
-/

namespace BundleTracker
namespace CommandLine

inductive Failure
  | paramsUnreadable (path : String)
  | paramsMalformed (path : String)
  | paramsUnwritable
  | scriptNotHex
  | noDeposit
  | transactionNotHex
  | transactionMalformed
  | traceUnreadable (path : String)
  | traceMalformed (path : String)
  | node (e : ChainError)
  | step (failure : Trace.Failure)
  deriving DecidableEq

namespace Failure

def message : Failure → String
  | .paramsUnreadable path => "failed to read params file " ++ path
  | .paramsMalformed path => "failed to parse params file " ++ path
  | .paramsUnwritable => "params out of range"
  | .scriptNotHex => "script must be hex"
  | .noDeposit => "script is not a sidechain deposit"
  | .transactionNotHex => "transaction must be hex"
  | .transactionMalformed => "invalid transaction"
  | .traceUnreadable path => "failed to read trace " ++ path
  | .traceMalformed path => "failed to parse trace " ++ path
  | .node e => e.message
  | .step failure => failure.message

/-- The error of the node behind a failure. -/
def cause? : Failure → Option ChainError
  | .node e => some e
  | .step failure => some failure.cause
  | _ => none

end Failure

structure Outcome where
  printed : String
  failure : Option Failure
  deriving DecidableEq

namespace Outcome

def line (text : String) : String := text ++ "\n"

def success (printed : String) : Outcome := ⟨printed, none⟩

def failed (failure : Failure) : Outcome := ⟨"", some failure⟩

def ofExcept : Except Failure Outcome → Outcome
  | .ok outcome => outcome
  | .error failure => failed failure

end Outcome

/-- The bytes that an argument writes in hexadecimal, blanks around it apart. -/
def bytes? (hex : String) : Option (List UInt8) := Hex.ofText? (Text.trim hex)

/-- Prints the deposit that a script makes. -/
def showDeposit (p : Params) (hex : String) : Except Failure Outcome :=
  match bytes? hex with
  | none => .error .scriptNotHex
  | some script =>
    match Deposit.ofScript? p.depositFlag script with
    | none => .error .noDeposit
    | some deposit => .ok (.success (Outcome.line (Json.indented deposit.toDatum)))

/-- Prints the deposits among the outputs of a transaction. -/
def showDeposits (p : Params) (hex : String) : Except Failure Outcome :=
  match bytes? hex with
  | none => .error .transactionNotHex
  | some bytes =>
    match Transaction.outputs? bytes with
    | none => .error .transactionMalformed
    | some outputs =>
      let deposits := (depositsIn p.depositFlag outputs).map DepositOutput.toDatum
      .ok (.success (Outcome.line (Json.indented (.list deposits))))

def showParams (p : Params) : Except Failure Outcome :=
  match p.toToml? with
  | none => .error .paramsUnwritable
  | some text => .ok (.success text)

/-- Where a node ended up, with the fields in the order of their names. -/
def summary (n : Node) : Datum := Datum.sorted (.record [
  ("tip", (n.chain.tip.map fun h => Datum.integer h.toNat).getD .null),
  ("scdb_hash", n.chain.hash.toDatum), ("state", n.chain.state.toDatum)])

/-- Replays a trace, and prints the events on request and where the node ended up. -/
def showReplay (p : Params) (steps : List TraceStep) (printEvents : Bool) :
    Except Failure Outcome := do
  let n ← (Node.start p).mapError .node
  let (hub, id) := n.hub.subscribe
  let (n, failure) := Trace.replay { n with hub } steps
  let events := if printEvents then (n.hub.drain id).2 else []
  let printed := String.join (events.map fun e => Outcome.line (Json.compact e.toDatum))
  match failure with
  | some failure => return ⟨printed, some (.step failure)⟩
  | none => return .success (printed ++ Outcome.line (Json.indented (summary n)))

variable {m : Type → Type} [Monad m] (readFile : String → m (Option String))

/-- The parameters in the named file, or the built-in ones. -/
def loadParams : Option String → ExceptT Failure m Params
  | none => return {}
  | some path => do
    let some text ← readFile path | throw (.paramsUnreadable path)
    match Params.ofToml text with
    | .ok p => return p
    | .error _ => throw (.paramsMalformed path)

def loadTrace (path : String) : ExceptT Failure m (List TraceStep) := do
  let some text ← readFile path | throw (.traceUnreadable path)
  match Trace.ofJson? text with
  | some steps => return steps
  | none => throw (.traceMalformed path)

/-- Carries out a command with these parameters. -/
def Command.run (p : Params) : Command → ExceptT Failure m Outcome
  | .depositInScript hex => ExceptT.mk (pure (showDeposit p hex))
  | .depositsInTransaction hex => ExceptT.mk (pure (showDeposits p hex))
  | .params => ExceptT.mk (pure (showParams p))
  | .replay path printEvents => do
    let steps ← loadTrace readFile path
    ExceptT.mk (pure (showReplay p steps printEvents))

/-- Carries out an invocation. -/
def Invocation.run (i : Invocation) : m Outcome := do
  let result ← (do i.command.run readFile (← loadParams readFile i.paramsFile)).run
  return .ofExcept result

end CommandLine
end BundleTracker
