import Mathlib.Tactic
import BundleTracker.Proofs.Chain.Steps
import BundleTracker.Proofs.State.Countdown

/-!
# Chains on schedule

After every block, all records have the blocks left that the period of their sidechain has. A
block that does not end the period takes one from both. A block that ends it finds the period
not ended before, and starts new records with a full one.
-/

namespace BundleTracker

namespace Chain

variable {c d : Chain} {height : UInt64} {before : Nat} {i : UInt8} {sidechain : Sidechain}

/-- With the block at `height`, all records last to the end of their periods, and no period was
ended by a later block. -/
structure InPhase (c : Chain) (height : Nat) : Prop where
  canonical : c.state.Canonical
  lasts : c.state.Lasts c.params.sidechains (·.remaining height)
  ended : ∀ last, c.lastBoundary = some last → last.toNat ≤ height

/-- The chain is in phase with its last block, which is not at the greatest height. Before the
first block it is in phase with every height. -/
structure OnSchedule (c : Chain) : Prop where
  atStart : c.tip = none → ∀ height, c.InPhase height
  atTip : ∀ tip, c.tip = some tip → c.InPhase tip.toNat
  below : ∀ tip, c.tip = some tip → tip < 0xffffffffffffffff

section Phase

theorem InPhase.onSchedule (h : c.InPhase height.toNat) (htip : c.tip = some height)
    (hbelow : height < 0xffffffffffffffff) : c.OnSchedule where
  atStart hnone := by
    rw [htip] at hnone
    cases hnone
  atTip tip hc := by
    obtain rfl := Option.some.inj (htip.symm.trans hc)
    exact h
  below tip hc := by
    obtain rfl := Option.some.inj (htip.symm.trans hc)
    exact hbelow

theorem InPhase.sameButStalls (h : c.InPhase before) (hsame : c.SameButStalls d) :
    d.InPhase before where
  canonical := by
    rw [hsame.state_eq]
    exact h.canonical
  lasts := by
    rw [hsame.state_eq, hsame.params_eq]
    exact h.lasts
  ended last hlast := h.ended last (hsame.lastBoundary_eq.symm.trans hlast)

namespace OnSchedule

theorem start (p : Params) : (Chain.start p).OnSchedule where
  atStart _ _ := ⟨State.All.empty, .empty, fun _ hlast => nomatch hlast⟩
  atTip _ htip := nomatch htip
  below _ htip := nomatch htip

theorem sameButStalls (h : c.OnSchedule) (hsame : c.SameButStalls d) : d.OnSchedule where
  atStart htip height := (h.atStart (hsame.tip_eq.symm.trans htip) height).sameButStalls hsame
  atTip tip htip := (h.atTip tip (hsame.tip_eq.symm.trans htip)).sameButStalls hsame
  below tip htip := h.below tip (hsame.tip_eq.symm.trans htip)

/-- A chain on schedule is in phase with the height before each one that it accepts. -/
theorem inPhase (h : c.OnSchedule) (hheight : c.checkHeight height = .ok ())
    (hpos : 0 < height) : ∃ before, height.toNat = before + 1 ∧ c.InPhase before := by
  cases htip : c.tip with
  | none =>
    have hone : 0 < height.toNat := UInt64.lt_iff_toNat_lt.mp hpos
    exact ⟨height.toNat - 1, by omega, h.atStart htip _⟩
  | some tip =>
    rcases succ_or_greatest_of_checkHeight hheight htip with hsucc | ⟨hgreatest, -⟩
    · exact ⟨tip.toNat, hsucc, h.atTip tip htip⟩
    · exact absurd hgreatest (UInt64.ne_of_lt (h.below tip htip))

end OnSchedule

end Phase

section Blocks

variable {proposals : List Bundle}

theorem state_endPeriods_of_ne (hlast : c.lastBoundary ≠ some height) :
    (c.endPeriods height proposals).1.state = (c.state.boundary c.params height proposals).1 := by
  unfold endPeriods
  split
  · rename_i hnothing
    obtain ⟨hcleared, -⟩ := hnothing.resolve_left hlast
    unfold State.boundary at hcleared ⊢
    split at hcleared
    · rfl
    · rename_i hne
      exact absurd hcleared hne
  · rfl

theorem lastBoundary_endPeriods (c : Chain) (height : UInt64) (proposals : List Bundle) :
    (c.endPeriods height proposals).1.lastBoundary = c.lastBoundary ∨
      (c.endPeriods height proposals).1.lastBoundary = some height := by
  unfold endPeriods
  split
  · exact Or.inl rfl
  · exact Or.inr rfl

theorem inPhase_endPeriods (hheight : height.toNat = before + 1) (hcanonical : c.state.Canonical)
    (hlasts : c.state.Lasts c.params.sidechains fun s => s.remaining before - 1)
    (hended : ∀ last, c.lastBoundary = some last → last.toNat ≤ before) :
    (c.endPeriods height proposals).1.InPhase height.toNat := by
  have hnew : c.lastBoundary ≠ some height := by
    intro hlast
    have hle := hended height hlast
    omega
  refine ⟨?_, ?_, ?_⟩
  · rw [state_endPeriods_of_ne hnew]
    exact hcanonical.boundary _ _ _
  · rw [state_endPeriods_of_ne hnew, params_endPeriods]
    exact hlasts.boundary hheight proposals
  · intro last hlast
    rcases c.lastBoundary_endPeriods height proposals with hold | hends
    · rw [hold] at hlast
      have hle := hended last hlast
      omega
    · rw [hends] at hlast
      obtain rfl := Option.some.inj hlast
      exact Nat.le_refl _

namespace InPhase

theorem adopt (h : c.InPhase before) (hheight : height.toNat = before + 1)
    (packages : List Package) (source : Source) :
    ((c.adopt (.build c.params c.state height packages source)).endPeriods height
      proposals).1.InPhase height.toNat := by
  have hlasts := Candidate.lasts_build h.lasts (fun s => s.remaining_le before) height packages
    source
  have hcanonical : (Candidate.build c.params c.state height packages source).state.Canonical := by
    rw [Candidate.state_build]
    exact h.canonical.change c.params _
  exact inPhase_endPeriods hheight hcanonical hlasts h.ended

theorem pass (h : c.InPhase before) (hheight : height.toNat = before + 1) :
    (({ c with tip := some height } : Chain).endPeriods height proposals).1.InPhase
      height.toNat :=
  inPhase_endPeriods hheight h.canonical (h.lasts.mono fun _ => Nat.sub_le _ _) h.ended

end InPhase

theorem on_endPeriods (hs : c.params.sidechain? i = some sidechain) (hpos : 0 < height.toNat)
    (hmid : ¬ sidechain.period.toNat ∣ height.toNat) :
    (c.endPeriods height proposals).1.state.on i = c.state.on i := by
  have hi : i ∉ c.params.sidechains.elapsedAt height := by
    rwa [SidechainTable.mem_elapsedAt_iff hs hpos]
  unfold endPeriods
  split
  · rfl
  · exact State.on_boundary_of_not_elapsed hi c.state proposals

theorem InPhase.keeps_bundles (h : c.InPhase before) (hheight : height.toNat = before + 1)
    (hs : c.params.sidechain? i = some sidechain) (hmid : ¬ sidechain.period.toNat ∣ height.toNat)
    (packages : List Package) (source : Source) :
    bundles (c.state.on i) <+:
        bundles ((Candidate.build c.params c.state height packages source).state.on i) ∧
      ∀ r ∈ (Candidate.build c.params c.state height packages source).expired,
        r.bundle.sidechain ≠ i := by
  have hleft : 0 < sidechain.remaining before - 1 := by
    rw [hheight] at hmid
    rw [← Sidechain.remaining_succ hmid]
    exact (c.params.sidechains.valid hs).remaining_pos _
  exact Candidate.keeps_bundles h.lasts h.canonical (fun s => s.remaining_le before) hs hleft
    height packages source

end Blocks

end Chain

end BundleTracker
