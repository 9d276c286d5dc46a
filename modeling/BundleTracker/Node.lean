import BundleTracker.Broadcast
import BundleTracker.Chain.Basic
import BundleTracker.Package.Buffer

/-!
# A node

A node follows the chain of blocks: it buffers the packages of its peers,
looks among them for the candidate that a block commits to, ends verification
periods, and tells its subscribers. An operation that fails leaves the chain
and the buffer as they were, except that a stall is counted.
-/

namespace BundleTracker

structure Node where
  chain : Chain
  buffer : Buffer
  hub : Hub Event
  deriving DecidableEq

/-- What a connected block did. -/
structure BlockOutcome where
  commitment : Option Digest
  events : List Event
  deriving DecidableEq

namespace Node

/-- A node with valid parameters and nothing in it. -/
def start (p : Params) : Except ChainError Node := do
  p.check.mapError .params
  return {
    chain := .start p
    buffer := { maxPerHeight := p.maxPackagesPerHeight.toNat
                maxHeights := p.maxBufferedHeights.toNat }
    hub := {} }

def publish (n : Node) (events : List Event) : Node := { n with hub := n.hub.publishAll events }

/-- Whether a package is too low or too high for the tip. -/
def rejects? (n : Node) (p : Package) : Option Admission :=
  n.chain.tip.bind fun tip =>
    if p.height ≤ tip then some .stale
    else if n.chain.params.maxBufferedHeights < p.height - tip then some .tooFar
    else none

/-- Hands in a package of a peer. -/
def addPackage (n : Node) (p : Package) : Node × Admission :=
  match n.rejects? p with
  | some admission => (n, admission)
  | none =>
    let (buffer, admission) := n.buffer.add p
    ({ n with buffer }, admission)

/-- Finds and commits the candidate with the hash, and drops the packages up to `height`. Only a
stall is published. -/
def settle (n : Node) (height : UInt64) (commitment : Digest) :
    Node × Except ChainError Event :=
  match n.chain.reconcile height commitment (n.buffer.packagesAt height) with
  | (chain, .ok event) =>
    ({ n with chain, buffer := n.buffer.pruneThrough height }, .ok event)
  | (chain, .error e) => ({ n with chain }.publish e.event?.toList, .error e)

/-- Reconciles the block at `height` and returns the new hash. -/
def reconcile (n : Node) (height : UInt64) (commitment : Digest) :
    Node × Except ChainError Digest :=
  match n.settle height commitment with
  | (n, .ok event) => (n.publish [event], .ok n.chain.hash)
  | (n, .error e) => (n, .error e)

/-- Passes over a block without a commitment. -/
def skip (n : Node) (height : UInt64) : Except ChainError Node := do
  let chain ← n.chain.skip height
  return { n with chain, buffer := n.buffer.pruneThrough height }

/-- Processes the commitment of a block, if there is one. -/
def advance (n : Node) (height : UInt64) :
    Option Digest → Node × Except ChainError (List Event)
  | some commitment =>
    match n.settle height commitment with
    | (n, .ok event) => (n, .ok [event])
    | (n, .error e) => (n, .error e)
  | none =>
    match n.skip height with
    | .ok n => (n, .ok [])
    | .error e => (n, .error e)

/-- Connects the block at `height` with these outputs in its coinbase. -/
def connectBlock (n : Node) (height : UInt64) (outputs : List Output) :
    Node × Except ChainError BlockOutcome :=
  match Coinbase.findCommitment n.chain.params.commitmentTag outputs with
  | .error conflict => (n, .error (.coinbase conflict))
  | .ok commitment =>
    match n.advance height commitment with
    | (n, .error e) => (n, .error e)
    | (n, .ok events) =>
      let proposals := Coinbase.proposals n.chain.params.proposalTag outputs
      match n.chain.boundary height proposals with
      | .error e => (n, .error e)
      | .ok (chain, event?) =>
        let events := events ++ event?.toList
        ({ n with chain }.publish events, .ok ⟨commitment, events⟩)

/-- The hash of the state after the next block, if it takes this package alone. -/
def predictCommitment (n : Node) (p : Package) : Digest := (n.chain.predict p).hash

def reset (n : Node) : Node :=
  let (chain, event) := n.chain.reset
  { n with chain, buffer := n.buffer.clear }.publish [event]

end Node

end BundleTracker
