import BundleTracker.Tag
import BundleTracker.Params.Table

/-!
# Consensus parameters

The tags that mark scripts, the workscore of a newly proposed bundle, the
limits on buffered update packages and on their combinations, and the
registered sidechains. Parameters are valid if no proposed bundle passes at
once and no limit is zero.
-/

namespace BundleTracker

structure Params where
  depositFlag : Tag := Tag.mk 0x0e 0x0d 0x0d 0x0e
  commitmentTag : Tag := Tag.mk 0x53 0x43 0x44 0x42
  proposalTag : Tag := Tag.mk 0x57 0x54 0x50 0x52
  /-- The workscore of a bundle that a coinbase proposes. -/
  initialScore : UInt16 := 0
  /-- The most packages that are merged in the search for a candidate. -/
  maxCombination : UInt64 := 3
  maxPackagesPerHeight : UInt64 := 16
  /-- How far above the last block packages are kept, and for how many heights. -/
  maxBufferedHeights : UInt64 := 16
  sidechains : SidechainTable := SidechainTable.standard
  deriving DecidableEq

/-- Why parameters are not valid. -/
inductive ParamsError
  | initialScoreTooHigh (sidechain : UInt8) (initial : UInt16)
  | zeroLimit
  deriving DecidableEq

def ParamsError.message : ParamsError → String
  | .initialScoreTooHigh sidechain initial =>
    s!"initial workscore {initial} would immediately pass sidechain {sidechain}"
  | .zeroLimit => "reconciler limits must be non-zero"

namespace Params

def sidechain? (p : Params) (index : UInt8) : Option Sidechain := p.sidechains.get? index

/-- No proposed bundle passes at once, and every limit is positive. -/
structure Valid (p : Params) : Prop where
  initialScore_lt : ∀ s ∈ p.sidechains.toList, p.initialScore < s.threshold
  maxCombination_ne : p.maxCombination ≠ 0
  maxPackagesPerHeight_ne : p.maxPackagesPerHeight ≠ 0
  maxBufferedHeights_ne : p.maxBufferedHeights ≠ 0

theorem Valid.initialScore_lt_threshold {p : Params} (h : p.Valid) {i : UInt8} {s : Sidechain}
    (hs : p.sidechain? i = some s) : p.initialScore < s.threshold := by
  refine h.initialScore_lt s (SidechainTable.mem_toList.mpr ?_)
  rw [p.sidechains.index_eq hs]
  exact hs

/-- The first sidechain that a proposed bundle would pass at once counts before the limits. -/
def check (p : Params) : Except ParamsError Unit :=
  match p.sidechains.toList.find? fun s => s.threshold ≤ p.initialScore with
  | some s => .error (.initialScoreTooHigh s.index p.initialScore)
  | none =>
    if p.maxCombination = 0 ∨ p.maxPackagesPerHeight = 0 ∨ p.maxBufferedHeights = 0 then
      .error .zeroLimit
    else .ok ()

theorem check_eq_ok_iff {p : Params} : p.check = .ok () ↔ p.Valid := by
  unfold check
  split
  · rename_i s hs
    simp only [reduceCtorEq, false_iff]
    intro h
    have hle : s.threshold ≤ p.initialScore := by simpa using List.find?_some hs
    exact absurd (h.initialScore_lt s (List.mem_of_find?_eq_some hs)) (by simpa using hle)
  · rename_i hnone
    have hlt : ∀ s ∈ p.sidechains.toList, p.initialScore < s.threshold := by
      simpa [List.find?_eq_none] using hnone
    split
    · rename_i h
      simp only [reduceCtorEq, false_iff]
      intro hv
      rcases h with h | h | h
      · exact hv.maxCombination_ne h
      · exact hv.maxPackagesPerHeight_ne h
      · exact hv.maxBufferedHeights_ne h
    · rename_i h
      simp only [not_or] at h
      exact iff_of_true rfl ⟨hlt, h.1, h.2.1, h.2.2⟩

end Params

end BundleTracker
