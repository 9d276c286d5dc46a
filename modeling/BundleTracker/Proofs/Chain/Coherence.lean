import Mathlib.Tactic
import BundleTracker.Proofs.Chain.Steps
import BundleTracker.Proofs.State.Operations

/-!
# Chains that fit together

The hash that a chain keeps is that of its state, no record outlives its window without having
reached the threshold, and nothing is tracked before the first block. A committed candidate
brings its own hash, and the end of periods computes it anew.
-/

namespace BundleTracker

theorem Record.lives_iff {table : SidechainTable} {r : Record} :
    r.lives table = true ↔ (r.blocksLeft = 0 → ∃ sidechain,
      table.get? r.bundle.sidechain = some sidechain ∧ sidechain.threshold ≤ r.workscore) := by
  have hpos : 0 < r.blocksLeft ↔ ¬ r.blocksLeft = 0 := UInt16.pos_iff_ne_zero
  rw [lives, Bool.or_eq_true, decide_eq_true_eq, Option.any_eq_true, hpos, ← imp_iff_not_or]
  simp only [decide_eq_true_eq]

namespace State

variable {s : State} {p : Params} {table : SidechainTable}

/-- Every record has blocks left or has reached the threshold. -/
def Decided (s : State) (table : SidechainTable) : Prop :=
  ∀ i, ∀ r ∈ s.on i, r.lives table = true

namespace Decided

theorem empty : State.empty.Decided table := by
  intro i r hr
  rw [on_empty] at hr
  cases hr

theorem dropExpired (s : State) (table : SidechainTable) :
    (s.dropExpired table).Decided table := by
  intro i r hr
  rw [on_dropExpired] at hr
  exact (List.mem_filter.mp hr).2

/-- A new record has a full period of blocks left, which is not empty. -/
theorem boundary (h : s.Decided p.sidechains) (height : UInt64) (proposals : List Bundle) :
    (s.boundary p height proposals).1.Decided p.sidechains := by
  intro i r hr
  by_cases hi : i ∈ p.sidechains.elapsedAt height
  · obtain ⟨sidechain, hs, -, hnew⟩ := mem_on_boundary_of_elapsed hi hr
    have hpos : 0 < sidechain.period := (p.sidechains.valid hs).period_pos
    rw [Record.lives_iff, hnew]
    intro hzero
    exact absurd hzero (UInt16.pos_iff_ne_zero.mp hpos)
  · rw [on_boundary_of_not_elapsed hi] at hr
    exact h i r hr

end Decided

end State

namespace Chain

variable {c d : Chain} {height : UInt64}

structure Coherent (c : Chain) : Prop where
  hash_eq : c.hash = c.state.hash
  decided : c.state.Decided c.params.sidechains
  empty_of_tip : c.tip = none → c.state = .empty

namespace Coherent

theorem start (p : Params) : (Chain.start p).Coherent := ⟨rfl, .empty, fun _ => rfl⟩

theorem adopt (c : Chain) (height : UInt64) (packages : List Package) (source : Source) :
    (c.adopt (.build c.params c.state height packages source)).Coherent where
  hash_eq := rfl
  decided := .dropExpired _ _
  empty_of_tip htip := nomatch htip

theorem pass (h : c.Coherent) (height : UInt64) :
    ({ c with tip := some height } : Chain).Coherent :=
  ⟨h.hash_eq, h.decided, fun htip => nomatch htip⟩

theorem sameButStalls (h : c.Coherent) (hsame : c.SameButStalls d) : d.Coherent where
  hash_eq := by
    rw [hsame.hash_eq, hsame.state_eq]
    exact h.hash_eq
  decided := by
    rw [hsame.state_eq, hsame.params_eq]
    exact h.decided
  empty_of_tip htip := by
    rw [hsame.state_eq]
    exact h.empty_of_tip (hsame.tip_eq.symm.trans htip)

theorem endPeriods (h : c.Coherent) (htip : c.tip = some height) (proposals : List Bundle) :
    (c.endPeriods height proposals).1.Coherent := by
  unfold Chain.endPeriods
  split
  · exact h
  · refine ⟨rfl, h.decided.boundary height proposals, fun hnone => ?_⟩
    rw [htip] at hnone
    cases hnone

end Coherent

end Chain

end BundleTracker
