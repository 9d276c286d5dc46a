import Mathlib.Tactic
import BundleTracker.Proofs.Chain.Steps

/-!
# The runs of a chain

A chain can be asked to commit any candidate, also one that was not built for it. The gate
lets a candidate pass exactly if its height is accepted and its state is legal, so the
canonical state stays legal through every run. On a legal state, reconciling and the end of
periods never meet an illegal one.
-/

namespace BundleTracker
namespace Chain

variable {c : Chain}

inductive Call
  | reconcile (height : UInt64) (expected : Digest) (packages : List Package)
  | commit (candidate : Candidate)
  | skip (height : UInt64)
  | boundary (height : UInt64) (proposals : List Bundle)
  | recordStall (height : UInt64) (expected : Digest) (tried : Nat)
  | reset

/-- The chain that a result holds; after an error it is the one before. -/
def orKeep (c : Chain) : Except ChainError Chain → Chain
  | .ok d => d
  | .error _ => c

def call (c : Chain) : Call → Chain
  | .reconcile height expected packages => (c.reconcile height expected packages).1
  | .commit candidate => c.orKeep ((c.commit candidate).map (·.1))
  | .skip height => c.orKeep (c.skip height)
  | .boundary height proposals => c.orKeep ((c.boundary height proposals).map (·.1))
  | .recordStall height expected tried => (c.recordStall height expected tried).1
  | .reset => c.reset.1

def run (c : Chain) (calls : List Call) : Chain := calls.foldl call c

@[simp] theorem run_cons (c : Chain) (first : Call) (rest : List Call) :
    c.run (first :: rest) = (c.call first).run rest := rfl

section Steps

inductive Commits (c : Chain) (candidate : Candidate) : Except ChainError (Chain × Event) → Prop
  | refused {e : ChainError} : c.checkHeight candidate.height = .error e →
      Commits c candidate (.error e)
  | illegal {violation : Violation} : c.checkHeight candidate.height = .ok () →
      candidate.state.check c.params.sidechains = .error violation →
      Commits c candidate (.error (.illegal violation))
  | committed : c.checkHeight candidate.height = .ok () →
      candidate.state.Legal c.params.sidechains →
      Commits c candidate (.ok (c.adopt candidate, candidate.event))

theorem commits (c : Chain) (candidate : Candidate) : c.Commits candidate (c.commit candidate) := by
  cases hheight : c.checkHeight candidate.height with
  | error e =>
    have hcommit : c.commit candidate = .error e := by
      simp only [commit, hheight]
      rfl
    rw [hcommit]
    exact .refused hheight
  | ok _ =>
    cases hcheck : candidate.state.check c.params.sidechains with
    | error violation =>
      have hcommit : c.commit candidate = .error (.illegal violation) := by
        simp only [commit, hheight, hcheck]
        rfl
      rw [hcommit]
      exact .illegal hheight hcheck
    | ok _ =>
      have hlegal : candidate.state.Legal c.params.sidechains :=
        State.check_eq_ok_iff_legal.mp hcheck
      rw [commit_eq hheight hlegal]
      exact .committed hheight hlegal

theorem Legal.boundary_cases (hlegal : c.Legal) (height : UInt64) (proposals : List Bundle) :
    c.boundary height proposals = .ok (c.endPeriods height proposals) ∨
      ∃ tip, c.tip = some tip ∧ tip ≠ height ∧
        c.boundary height proposals = .error (.outOfOrder tip height) := by
  by_cases hlast : ∀ tip, c.tip = some tip → tip = height
  · exact Or.inl (hlegal.boundary_eq hlast proposals)
  · obtain ⟨tip, htip, hne⟩ : ∃ tip, c.tip = some tip ∧ tip ≠ height := by simpa using hlast
    refine Or.inr ⟨tip, htip, hne, ?_⟩
    simp only [boundary, htip, if_pos hne]
    rfl

end Steps

section Legality

theorem call_commit_of_error {candidate : Candidate} {e : ChainError}
    (h : c.commit candidate = .error e) : c.call (.commit candidate) = c := by
  rw [call, h]
  rfl

theorem params_call (hlegal : c.Legal) (x : Call) : (c.call x).params = c.params := by
  cases x with
  | reconcile height expected packages =>
    have hstep := hlegal.reconciles height expected packages
    unfold call
    dsimp only
    generalize c.reconcile height expected packages = result at hstep ⊢
    cases hstep <;> rfl
  | commit candidate =>
    have hstep := c.commits candidate
    unfold call
    dsimp only
    generalize c.commit candidate = result at hstep ⊢
    cases hstep <;> rfl
  | skip height =>
    cases hheight : c.checkHeight height with
    | error e => rw [call, skip_eq_error hheight]; rfl
    | ok _ => rw [call, skip_eq hheight]; rfl
  | boundary height proposals =>
    rcases hlegal.boundary_cases height proposals with h | ⟨tip, -, -, h⟩
    · rw [call, h]
      exact params_endPeriods proposals
    · rw [call, h]
      rfl
  | recordStall height expected tried => rfl
  | reset => rfl

/-- Every call keeps the canonical state legal, whatever candidate it hands to the gate. -/
theorem Legal.call (hlegal : c.Legal) (x : Call) : (c.call x).Legal := by
  cases x with
  | reconcile height expected packages =>
    have hstep := hlegal.reconciles height expected packages
    unfold Chain.call
    dsimp only
    generalize c.reconcile height expected packages = result at hstep ⊢
    cases hstep with
    | refused _ => exact hlegal
    | settled _ _ => exact hlegal.adopt height packages _
    | stalled _ _ _ => exact hlegal
  | commit candidate =>
    have hstep := c.commits candidate
    unfold Chain.call
    dsimp only
    generalize c.commit candidate = result at hstep ⊢
    cases hstep with
    | refused _ => exact hlegal
    | illegal _ _ => exact hlegal
    | committed _ hcandidate => exact hcandidate
  | skip height =>
    cases hheight : c.checkHeight height with
    | error e =>
      rw [Chain.call, skip_eq_error hheight]
      exact hlegal
    | ok _ =>
      rw [Chain.call, skip_eq hheight]
      exact hlegal
  | boundary height proposals =>
    rcases hlegal.boundary_cases height proposals with h | ⟨tip, -, -, h⟩
    · rw [Chain.call, h]
      exact hlegal.endPeriods height proposals
    · rw [Chain.call, h]
      exact hlegal
  | recordStall height expected tried => exact hlegal
  | reset => exact .start _

theorem Legal.run (hlegal : c.Legal) (calls : List Call) :
    (c.run calls).Legal ∧ (c.run calls).params = c.params := by
  induction calls generalizing c with
  | nil => exact ⟨hlegal, rfl⟩
  | cons x rest ih =>
    obtain ⟨hrest, hparams⟩ := ih (hlegal.call x)
    exact ⟨hrest, hparams.trans (params_call hlegal x)⟩

theorem Legal.reconcile_ne_illegal (hlegal : c.Legal) (height : UInt64) (expected : Digest)
    (packages : List Package) (violation : Violation) :
    (c.reconcile height expected packages).2 ≠ .error (.illegal violation) := by
  intro h
  have hstep := hlegal.reconciles height expected packages
  generalize c.reconcile height expected packages = result at h hstep
  cases hstep with
  | refused hheight =>
    obtain ⟨next, -, -, rfl⟩ := checkHeight_eq_error hheight
    cases h
  | settled _ _ => cases h
  | stalled _ _ _ => cases h

theorem Legal.boundary_ne_illegal (hlegal : c.Legal) (height : UInt64) (proposals : List Bundle)
    (violation : Violation) : c.boundary height proposals ≠ .error (.illegal violation) := by
  intro h
  rcases hlegal.boundary_cases height proposals with heq | ⟨tip, -, -, heq⟩
  · rw [heq] at h
    cases h
  · rw [heq] at h
    cases h

/-- After every call of every run the canonical state passes the check: sidechains with records
are registered, no bundle occurs twice, and no number exceeds the period. A candidate that the
gate turns away leaves the chain as it is, and neither reconciling nor the end of periods finds
an illegal state. -/
theorem legal_after_run (p : Params) (calls : List Call) :
    ((start p).run calls).state.check p.sidechains = .ok () ∧
    (∀ (i : UInt8) (records : List Record),
      ((start p).run calls).state.tracked[i]? = some records →
      ∃ sidechain, p.sidechains.get? i = some sidechain ∧ (bundles records).Nodup ∧
        ∀ r ∈ records, r.workscore ≤ sidechain.period ∧ r.blocksLeft ≤ sidechain.period) ∧
    (∀ candidate e, ((start p).run calls).commit candidate = .error e →
      ((start p).run calls).call (.commit candidate) = (start p).run calls) ∧
    (∀ height expected packages violation,
      (((start p).run calls).reconcile height expected packages).2 ≠
        .error (.illegal violation)) ∧
    ∀ height proposals violation,
      ((start p).run calls).boundary height proposals ≠ .error (.illegal violation) := by
  obtain ⟨hlegal, hparams⟩ := (Legal.start p).run calls
  have hstate : ((start p).run calls).state.Legal p.sidechains := by
    rw [Legal, hparams] at hlegal
    exact hlegal
  refine ⟨State.check_eq_ok_iff_legal.mpr hstate, ?_, ?_, ?_, ?_⟩
  · intro i records hi
    obtain ⟨⟨sidechain, hs, hbounds⟩, hnodup⟩ := hstate hi
    exact ⟨sidechain, hs, hnodup, hbounds⟩
  · intro candidate e h
    exact call_commit_of_error h
  · intro height expected packages violation
    exact hlegal.reconcile_ne_illegal height expected packages violation
  · intro height proposals violation
    exact hlegal.boundary_ne_illegal height proposals violation

/-- A state with a bundle of a sidechain that is not registered is turned away at the gate. -/
theorem unregistered_turned_away :
    let calls : List Call := [.boundary 300 [⟨0, Block.zero 32⟩], .skip 300]
    let state := State.empty.applyScore ⟨9, "unknown", 20, 1⟩ (Block.zero 32) 7
    let candidate : Candidate := ⟨301, state, Block.zero 32, .noUpdate, []⟩
    ((start {}).run calls).commit candidate = .error (.illegal (.unregistered 9)) ∧
      ((start {}).run calls).call (.commit candidate) = (start {}).run calls := by
  intro calls state candidate
  have hrefused : ((start {}).run calls).commit candidate =
      .error (.illegal (.unregistered 9)) := by
    decide +kernel
  exact ⟨hrefused, (legal_after_run {} calls).2.2.1 candidate _ hrefused⟩

end Legality

end Chain
end BundleTracker
