import Std.Data.ExtTreeMap
import BundleTracker.Bundle

/-!
# The state of the tracked bundles

For each sidechain with tracked bundles the state holds their records in the
order in which tracking began. The records of the whole state are listed by
ascending sidechain.
-/

namespace BundleTracker

/-- What is known of one tracked bundle. -/
structure Record where
  bundle : Bundle
  workscore : UInt16
  /-- The blocks left in which the bundle may still reach the threshold. -/
  blocksLeft : UInt16
  deriving DecidableEq

def Record.text (r : Record) : String :=
  s!"wt^ {r.bundle.digest.text} (sidechain {r.bundle.sidechain}, workscore {r.workscore}, " ++
    s!"{r.blocksLeft} blocks left)"

structure State where
  tracked : Std.ExtTreeMap UInt8 (List Record) := ∅
  deriving DecidableEq

namespace State

def empty : State := {}

/-- The records of one sidechain. -/
def on (s : State) (sidechain : UInt8) : List Record := s.tracked.getD sidechain []

def find? (s : State) (bundle : Bundle) : Option Record :=
  (s.on bundle.sidechain).find? (·.bundle = bundle)

/-- All records, by ascending sidechain. -/
def toList (s : State) : List Record := s.tracked.toList.flatMap (·.2)

/-- The sidechains with tracked bundles, in ascending order. -/
def sidechains (s : State) : List UInt8 := s.tracked.keys

def size (s : State) : Nat := s.toList.length

def isEmpty (s : State) : Bool := s.tracked.isEmpty

@[ext] theorem ext {s t : State} (h : ∀ i : UInt8, s.tracked[i]? = t.tracked[i]?) : s = t := by
  cases s; cases t
  congr
  exact Std.ExtTreeMap.ext_getElem? h

end State

end BundleTracker
