import BundleTracker.Chain.Error

/-!
# The chain of processed blocks

What the blocks processed so far have settled: the canonical state with its
hash and the height of the last block. Blocks come strictly one after the
other, and before the first one every height is accepted. A block either
commits to the hash of the next state, and then a candidate with that hash has
to be found, or leaves the state as it is. Stalls are counted for each height.
-/

namespace BundleTracker

structure Chain where
  params : Params
  state : State
  hash : Digest
  /-- The height of the last block. -/
  tip : Option UInt64
  /-- How often each height stalled. -/
  stalls : Std.ExtTreeMap UInt64 Nat
  /-- The height of the last period boundary that was applied. -/
  lastBoundary : Option UInt64
  deriving DecidableEq

namespace Chain

def start (params : Params) : Chain where
  params
  state := .empty
  hash := State.empty.hash
  tip := none
  stalls := ∅
  lastBoundary := none

/-- The height of the next block, once there is a tip. -/
def next? (c : Chain) : Option UInt64 := c.tip.map nextHeight

def passes (c : Chain) (bundle : Bundle) : Bool :=
  (c.params.sidechain? bundle.sidechain).any fun s => c.state.passes s bundle.digest

def checkHeight (c : Chain) (height : UInt64) : Except ChainError Unit :=
  match c.next? with
  | some expected => if expected = height then .ok () else .error (.outOfOrder expected height)
  | none => .ok ()

/-- Looks for a candidate with the hash, at a height that is accepted. -/
def search (c : Chain) (height : UInt64) (hash : Digest) (packages : List Package) :
    Except ChainError (Except Nat Candidate) := do
  c.checkHeight height
  return Candidate.search c.params c.state height packages hash

/-- The candidate for the next block by one package alone. -/
def predict (c : Chain) (package : Package) : Candidate :=
  Candidate.build c.params c.state (c.next?.getD package.height) [package] (.package 0)

/-- Makes a candidate the canonical state, if its height is accepted and its state is legal. -/
def commit (c : Chain) (candidate : Candidate) : Except ChainError (Chain × Event) := do
  c.checkHeight candidate.height
  (candidate.state.check c.params.sidechains).mapError .illegal
  let next := nextHeight candidate.height
  return ({ c with
    state := candidate.state
    hash := candidate.hash
    tip := some candidate.height
    stalls := c.stalls.filter fun h _ => next ≤ h },
    .reconciled candidate.height candidate.hash candidate.source
      (candidate.expired.map (·.bundle)))

/-- Counts a stall of the block at `height`. -/
def recordStall (c : Chain) (height : UInt64) (expected : Digest) (tried : Nat) :
    Chain × Stall :=
  let attempt := c.stalls.getD height 0 + 1
  ({ c with stalls := c.stalls.insert height attempt }, ⟨height, expected, tried, attempt⟩)

/-- Processes a block that commits to the hash `expected`. -/
def reconcile (c : Chain) (height : UInt64) (expected : Digest) (packages : List Package) :
    Chain × Except ChainError Event :=
  match c.search height expected packages with
  | .error e => (c, .error e)
  | .ok (.error tried) =>
    let (c, stall) := c.recordStall height expected tried
    (c, .error (.stall stall))
  | .ok (.ok candidate) =>
    match c.commit candidate with
    | .error e => (c, .error e)
    | .ok (c, event) => (c, .ok event)

/-- Processes a block without a commitment. -/
def skip (c : Chain) (height : UInt64) : Except ChainError Chain := do
  c.checkHeight height
  return { c with tip := some height }

/-- Ends the periods that end with the last block, once. The event is absent if there are none. -/
def boundary (c : Chain) (height : UInt64) (proposals : List Bundle) :
    Except ChainError (Chain × Option Event) := do
  match c.tip with
  | some tip => if tip ≠ height then throw (.outOfOrder tip height)
  | none => pure ()
  if c.lastBoundary = some height then return (c, none)
  let (state, outcome) := c.state.boundary c.params height proposals
  if outcome.cleared = [] ∧ outcome.seeded = [] then return (c, none)
  (state.check c.params.sidechains).mapError .illegal
  return ({ c with state, hash := state.hash, lastBoundary := some height },
    some (.periodBoundary height outcome))

/-- Forgets everything but the parameters. -/
def reset (c : Chain) : Chain × Event := (start c.params, .reset)

end Chain

end BundleTracker
