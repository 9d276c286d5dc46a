import Std.Data.ExtTreeMap
import BundleTracker.Bundle

/-!
# Update packages

An update proposes a workscore for a bundle; a package holds the updates that a
peer proposes for the block at one height. Of several updates for one bundle
the last one counts, and updates are applied in the order of their bundles.
-/

namespace BundleTracker

/-- The workscore that a peer proposes for a bundle. It may lie outside the period. -/
structure Update where
  bundle : Bundle
  score : Int32
  deriving DecidableEq

def Update.text (u : Update) : String :=
  s!"sidechain {u.bundle.sidechain} wt^ {u.bundle.digest.text} -> {u.score}"

structure Package where
  height : UInt64
  updates : List Update
  deriving DecidableEq

/-- The height after `height`; the greatest height is its own successor. -/
def nextHeight (height : UInt64) : UInt64 :=
  if height = 0xffffffffffffffff then height else height + 1

theorem toNat_nextHeight (height : UInt64) :
    (nextHeight height).toNat = min (height.toNat + 1) 0xffffffffffffffff := by
  unfold nextHeight
  split
  · rename_i hgreatest
    rw [hgreatest]
    rfl
  · rename_i hgreatest
    have hne : height.toNat ≠ 0xffffffffffffffff := fun h => hgreatest (UInt64.toNat_inj.mp h)
    have hlt := height.toNat_lt
    rw [UInt64.toNat_add, UInt64.toNat_one]
    omega

/-- The last score for each bundle. -/
def lastScores (updates : List Update) : Std.ExtTreeMap Bundle Int32 :=
  updates.foldl (fun scores u => scores.insert u.bundle u.score) ∅

end BundleTracker
