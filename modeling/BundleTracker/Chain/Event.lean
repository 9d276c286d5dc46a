import BundleTracker.Candidate.Basic

/-!
# Events

What subscribers hear: a block whose commitment was matched by a candidate, a
block for which none matched, the end of a verification period, and a reset.
-/

namespace BundleTracker

/-- A block whose commitment no candidate matches. -/
structure Stall where
  height : UInt64
  expected : Digest
  /-- The number of candidates that were built. -/
  tried : Nat
  /-- How often the block stalled, this time included. -/
  attempt : Nat
  deriving DecidableEq

inductive Event
  | reconciled (height : UInt64) (hash : Digest) (source : Source) (expired : List Bundle)
  | stalled (stall : Stall)
  | periodBoundary (height : UInt64) (boundary : Boundary)
  | reset
  deriving DecidableEq

def Event.text : Event → String
  | .reconciled height _ source expired =>
    s!"Reconciled height {height} from {source.text} ({expired.length} expired)"
  | .stalled stall => s!"Stalled at height {stall.height} (attempt {stall.attempt})"
  | .periodBoundary height boundary =>
    s!"PeriodBoundary at height {height} ({boundary.cleared.length} cleared, " ++
      s!"{boundary.seeded.length} seeded)"
  | .reset => "Reset"

end BundleTracker
