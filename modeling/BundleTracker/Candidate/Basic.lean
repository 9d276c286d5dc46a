import BundleTracker.Candidate.Source
import BundleTracker.Package.Basic
import BundleTracker.State.Commitment
import BundleTracker.State.Window

/-!
# Candidate states

A candidate for a block is the state that follows if the updates of some
packages are applied: the last score for each bundle of a registered
sidechain, in the order of the bundles; then one block less for every record;
then the end of those that do not stay.
-/

namespace BundleTracker

structure Candidate where
  height : UInt64
  state : State
  hash : Digest
  source : Source
  /-- The records that did not stay. -/
  expired : List Record
  deriving DecidableEq

namespace State

/-- Applies a score to a bundle of a registered sidechain. -/
def applyUpdate (table : SidechainTable) (s : State) (bundle : Bundle) (score : Int32) : State :=
  match table.get? bundle.sidechain with
  | some sidechain => s.applyScore sidechain bundle.digest score
  | none => s

/-- Applies the last score for each bundle. -/
def applyUpdates (table : SidechainTable) (s : State) (updates : List Update) : State :=
  (lastScores updates).foldl (applyUpdate table) s

end State

namespace Candidate

/-- The updates of the selected packages; positions past the end select nothing. -/
def selected (packages : List Package) (source : Source) : List Update :=
  (source.indices.filterMap (packages[·]?)).flatMap (·.updates)

/-- The candidate that follows `base` by the packages that `source` selects. -/
def build (p : Params) (base : State) (height : UInt64) (packages : List Package)
    (source : Source) : Candidate :=
  let scored := (base.applyUpdates p.sidechains (selected packages source)).tick
  let state := scored.dropExpired p.sidechains
  { height, state, hash := state.hash, source, expired := scored.expired p.sidechains }

/-- Stops with the candidate of the first selection that has the hash, and counts the others. -/
def tryEach (build : Source → Candidate) (hash : Digest) (tried : Nat) (sources : List Source) :
    Except Candidate Nat :=
  sources.foldlM (fun tried source =>
    let candidate := build source
    if candidate.hash = hash then .error candidate else .ok (tried + 1)) tried

/-- The first candidate with the hash, or the number of candidates that were tried. -/
def search (p : Params) (base : State) (height : UInt64) (packages : List Package)
    (hash : Digest) : Except Nat Candidate :=
  let found := (Source.sizes packages.length p.maxCombination.toNat).foldlM (fun tried size =>
    tryEach (build p base height packages) hash tried (Source.ofSize packages.length size)) 0
  match found with
  | .error candidate => .ok candidate
  | .ok tried => .error tried

end Candidate

end BundleTracker
