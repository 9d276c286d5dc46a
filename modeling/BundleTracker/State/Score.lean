import BundleTracker.State.Basic
import BundleTracker.Params.Basic

/-!
# Scoring bundles

A proposed score is brought into the range from zero to the period of its
sidechain. The first score for a bundle starts a record with a full period of
blocks; later ones replace its workscore only.
-/

namespace BundleTracker

/-- The score brought into the range from 0 to `period`. -/
def clampScore (period : UInt16) (score : Int32) : UInt16 :=
  UInt16.ofNat (min score.toInt.toNat period.toNat)

/-- Gives the record of `bundle` a new workscore, and appends a record if there is none. -/
def rescore (bundle : Bundle) (workscore period : UInt16) : List Record → List Record
  | [] => [⟨bundle, workscore, period⟩]
  | r :: rest =>
    if r.bundle = bundle then { r with workscore } :: rest
    else r :: rescore bundle workscore period rest

namespace State

/-- Applies a proposed score to the bundle with this digest on sidechain `s`. -/
def applyScore (state : State) (s : Sidechain) (digest : Digest) (score : Int32) : State where
  tracked := state.tracked.insert s.index
    (rescore ⟨s.index, digest⟩ (clampScore s.period score) s.period (state.on s.index))

/-- Whether the bundle is tracked and has reached the threshold of `s`. -/
def passes (state : State) (s : Sidechain) (digest : Digest) : Bool :=
  (state.find? ⟨s.index, digest⟩).any fun r => s.threshold ≤ r.workscore

end State

end BundleTracker
