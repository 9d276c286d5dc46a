/-!
# Sidechains

A sidechain counts its blocks in verification periods. A bundle passes with a
workscore of at least the threshold, which has to be positive and reachable
within one period.
-/

namespace BundleTracker

structure Sidechain where
  index : UInt8
  name : String
  /-- The number of blocks in a verification period. -/
  period : UInt16 := 300
  /-- The least workscore with which a bundle passes. -/
  threshold : UInt16 := 100
  deriving DecidableEq, Inhabited

/-- Why a list of sidechains is refused. -/
inductive SidechainError
  | emptyPeriod (sidechain : UInt8)
  | zeroThreshold (sidechain : UInt8)
  | unreachableThreshold (sidechain : UInt8) (threshold period : UInt16)
  | duplicate (sidechain : UInt8)
  deriving DecidableEq

def SidechainError.message : SidechainError → String
  | .emptyPeriod sidechain => s!"sidechain {sidechain} has a verification period of zero blocks"
  | .zeroThreshold sidechain => s!"sidechain {sidechain} has a pass threshold of zero"
  | .unreachableThreshold sidechain threshold period =>
    s!"sidechain {sidechain} requires workscore {threshold} but its period is only {period}"
  | .duplicate sidechain => s!"sidechain {sidechain} is registered more than once"

namespace Sidechain

/-- The threshold is positive and within reach. -/
def Valid (s : Sidechain) : Prop := 0 < s.threshold ∧ s.threshold ≤ s.period

instance (s : Sidechain) : Decidable s.Valid := inferInstanceAs (Decidable (_ ∧ _))

def check (s : Sidechain) : Except SidechainError Unit :=
  if s.period = 0 then .error (.emptyPeriod s.index)
  else if s.threshold = 0 then .error (.zeroThreshold s.index)
  else if s.period < s.threshold then
    .error (.unreachableThreshold s.index s.threshold s.period)
  else .ok ()

theorem Valid.period_pos {s : Sidechain} (h : s.Valid) : 0 < s.period := by
  have h1 : 0 < s.threshold.toNat := UInt16.lt_iff_toNat_lt.1 h.1
  have h2 := UInt16.le_iff_toNat_le.1 h.2
  exact UInt16.lt_iff_toNat_lt.2 (show 0 < s.period.toNat by omega)

theorem check_eq_ok_iff {s : Sidechain} : s.check = .ok () ↔ s.Valid := by
  have hz : ∀ x : UInt16, x = 0 ↔ x.toNat = 0 := fun x => by
    rw [← UInt16.toNat_inj]; rfl
  simp only [check, Valid, UInt16.lt_iff_toNat_lt, UInt16.le_iff_toNat_le, hz]
  have h0 : (0 : UInt16).toNat = 0 := rfl
  rw [h0]
  repeat' split
  all_goals simp only [reduceCtorEq, false_iff, true_iff]
  all_goals omega

/-- Whether a verification period ends with the block at `height`. -/
def elapsesAt (s : Sidechain) (height : UInt64) : Bool :=
  0 < height && height % s.period.toUInt64 == 0

end Sidechain

end BundleTracker
