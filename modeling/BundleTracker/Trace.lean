import BundleTracker.Node
import BundleTracker.Package.Document
import BundleTracker.Text.Json.Parser

/-!
# Traces

A trace is a record of what a node met: packages of its peers, blocks, and
blocks that it mined itself. Replaying it takes a node through the same steps
and stops at the first one that fails. In text a trace is a JSON list; each
step names its kind in the field `step`.
-/

namespace BundleTracker

inductive TraceStep
  | package (package : Package)
  /-- A block whose coinbase carries these data. -/
  | block (height : UInt64) (commitment : Option Digest) (proposals : List Bundle)
  /-- A block that commits to what this package leads to. -/
  | mine (package : Package) (proposals : List Bundle)
  deriving DecidableEq

namespace TraceStep

def height : TraceStep → UInt64
  | .package p => p.height
  | .block height _ _ => height
  | .mine p _ => p.height

variable {ε : Type}

def read : Reader ε TraceStep := Reader.tagged "step" fun
  | "package" => fun d => package <$> Package.read d
  | "block" => Reader.record ["height", "commitment", "proposals"] false fun parts =>
    block <$> parts.get "height" Reader.longWord <*>
      parts.getD "commitment" (Reader.optional Digest.read) none <*>
      parts.getD "proposals" (Reader.list Bundle.read) []
  | "mine" => Reader.record ["height", "updates", "proposals"] false fun parts =>
    (fun height updates proposals => mine ⟨height, updates⟩ proposals) <$>
      parts.get "height" Reader.longWord <*>
      parts.getD "updates" (Reader.list Update.read) [] <*>
      parts.getD "proposals" (Reader.list Bundle.read) []
  | _ => fun _ => .error .shape

end TraceStep

namespace Node

/-- Connects a block whose coinbase carries these data and no others. -/
def connectData (n : Node) (height : UInt64) (commitment : Option Digest)
    (proposals : List Bundle) : Node × Except ChainError BlockOutcome :=
  n.connectBlock height (Coinbase.dataOutputs n.chain.params.commitmentTag
    n.chain.params.proposalTag commitment proposals)

/-- Mines a block from a package: hands the package in and connects the block it leads to. -/
def mine (n : Node) (p : Package) (proposals : List Bundle) :
    Node × Admission × Except ChainError BlockOutcome :=
  let commitment := n.predictCommitment p
  let (n, admission) := n.addPackage p
  let (n, outcome) := n.connectData p.height (some commitment) proposals
  (n, admission, outcome)

/-- Takes a node through one step, and says whether the step fails. -/
def follow (n : Node) : TraceStep → Node × Option ChainError
  | .package p => ((n.addPackage p).1, none)
  | .block height commitment proposals =>
    match n.connectData height commitment proposals with
    | (n, .ok _) => (n, none)
    | (n, .error e) => (n, some e)
  | .mine p proposals =>
    match n.mine p proposals with
    | (n, _, .ok _) => (n, none)
    | (n, _, .error e) => (n, some e)

end Node

namespace Trace

/-- The step at which a replay stops. -/
structure Failure where
  index : Nat
  height : UInt64
  cause : ChainError
  deriving DecidableEq

def Failure.message (f : Failure) : String := s!"step {f.index} failed at height {f.height}"

/-- Takes a node through the steps, which are counted from `index`. -/
def replayFrom (index : Nat) (n : Node) : List TraceStep → Node × Option Failure
  | [] => (n, none)
  | step :: rest =>
    match n.follow step with
    | (n, none) => replayFrom (index + 1) n rest
    | (n, some cause) => (n, some ⟨index, step.height, cause⟩)

/-- Takes a node through the steps up to the first that fails. -/
def replay (n : Node) (steps : List TraceStep) : Node × Option Failure := replayFrom 0 n steps

/-- How deep the lists and records of a trace may nest. -/
def maxNesting : Nat := 127

/-- The steps that a JSON text lists. -/
def ofJson? (text : String) : Option (List TraceStep) := do
  let d ← Json.read? text
  if d.isSound maxNesting then
    match (Reader.list TraceStep.read d : Except (Fault Empty) (List TraceStep)) with
    | .ok steps => some steps
    | .error _ => none
  else none

end Trace

end BundleTracker
