import BundleTracker.Chain.Event
import BundleTracker.Script.Coinbase
import BundleTracker.State.Legal

/-!
# Errors of block processing

Only an illegal state is fatal: it cannot come from the blocks themselves.
-/

namespace BundleTracker

inductive ChainError
  | params (e : ParamsError)
  | stall (stall : Stall)
  | outOfOrder (expected got : UInt64)
  | coinbase (conflict : Coinbase.Conflict)
  | illegal (violation : Violation)
  deriving DecidableEq

namespace ChainError

def message : ChainError → String
  | .params e => "invalid params: " ++ e.message
  | .stall s => s!"stalled at height {s.height}: none of {s.tried} candidates reproduces " ++
      s!"{s.expected.text} (attempt {s.attempt})"
  | .outOfOrder expected got => s!"expected height {expected}, got {got}"
  | .coinbase conflict => "bad coinbase: " ++ conflict.message
  | .illegal violation => "invariant violated: " ++ violation.message

def isFatal : ChainError → Bool
  | .illegal _ => true
  | _ => false

/-- The event that subscribers hear of an error. -/
def event? : ChainError → Option Event
  | .stall s => some (.stalled s)
  | _ => none

end ChainError

end BundleTracker
