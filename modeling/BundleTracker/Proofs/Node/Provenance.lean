import Mathlib.Tactic
import BundleTracker.Proofs.Chain.History
import BundleTracker.Proofs.Node.Runs
import BundleTracker.Proofs.State.Tenure

/-!
# The votes behind a workscore

What a run changes in the canonical state is read off the events of its calls: a block that
settled committed the updates of the selection it settled on, and no others. The canonical
state is what these changes make of the empty state, so packages that were never selected
play no part, and every workscore goes back to a committed vote or to a proposal.
-/

namespace BundleTracker

namespace Node

variable {n : Node} {p : Params}

/-- The changes that a call makes to the canonical state. -/
def changes (n : Node) : Call → List Change
  | .reconcile height commitment =>
    match (n.settle height commitment).2 with
    | .ok event => (event.change? (n.buffer.packagesAt height) []).toList
    | .error _ => []
  | .connect height outputs =>
    match (n.connectBlock height outputs).2 with
    | .ok outcome => outcome.events.filterMap <|
      Event.change? (n.buffer.packagesAt height)
        (Coinbase.proposals n.chain.params.proposalTag outputs)
    | .error _ => []
  | .reset => [.reset]
  | _ => []

def history (n : Node) : List Call → List Change
  | [] => []
  | c :: rest => n.changes c ++ (n.call c).history rest

section Steps

theorem state_finish (m : Node) (height : UInt64) (outputs : List Output) (events : List Event)
    (packages : List Package) :
    (m.finish height outputs events).1.chain.state =
      ((m.chain.endPeriods height
          (Coinbase.proposals m.chain.params.proposalTag outputs)).2.toList.filterMap
        (Event.change? packages (Coinbase.proposals m.chain.params.proposalTag outputs))).foldl
          (State.change m.chain.params) m.chain.state :=
  m.chain.state_endPeriods height packages _

/-- A call makes the changes to the canonical state that its events tell of. -/
theorem state_call (hn : n.Sound) (c : Call) :
    (n.call c).chain.state =
      (n.changes c).foldl (State.change n.chain.params) n.chain.state := by
  cases c with
  | add package =>
    rw [call, chain_addPackage]
    rfl
  | reconcile height commitment =>
    have hstep := n.settles hn.legal height commitment
    unfold call changes reconcile
    dsimp only
    generalize n.settle height commitment = result at hstep ⊢
    cases hstep with
    | refused _ => rfl
    | @settled source _ _ => exact Candidate.state_build _ _ height _ _
    | stalled _ _ => rfl
  | connect height outputs =>
    have hstep := n.connects hn.legal height outputs
    unfold call changes
    dsimp only
    generalize n.connectBlock height outputs = result at hstep ⊢
    cases hstep with
    | conflict _ => rfl
    | refused _ => rfl
    | @settled _ source _ _ _ =>
      have hadopt : (n.adopt (n.candidate height source)).chain.state = _ :=
        Candidate.state_build _ _ height _ _
      dsimp only
      rw [state_finish _ height outputs _ (n.buffer.packagesAt height), hadopt]
      rfl
    | stalled _ _ _ => rfl
    | passed _ _ => exact state_finish _ height outputs [] (n.buffer.packagesAt height)
  | _ => rfl

end Steps

section Runs

theorem state_run (hn : n.Sound) (calls : List Call) :
    (n.run calls).chain.state =
      (n.history calls).foldl (State.change n.chain.params) n.chain.state := by
  induction calls generalizing n with
  | nil => rfl
  | cons c rest ih =>
    have hstate := ih (hn.call c)
    rw [hn.params_call] at hstate
    rw [run_cons, history, List.foldl_append, ← state_call hn]
    exact hstate

/-- No bundle passes without a committed vote. The canonical state is made by the updates of the
selections that were committed, by ended periods and by resets. Every record has a tenure in
these changes; the last update in it that names the bundle, brought into the range of the
period, is its workscore; without one it was proposed when a period ended and has the initial
workscore. A bundle passes exactly if that last update proposes at least the threshold. -/
theorem workscore_of_last_committed_vote (hn : start p = .ok n) (calls : List Call)
    (bundle : Bundle) :
    (n.run calls).chain.state = State.ofChanges p (n.history calls) ∧
    (((n.run calls).chain.state.find? bundle).isSome →
      ∃ before created later, n.history calls = before ++ created :: later ∧
        Tenure p bundle before created later) ∧
    (∀ before created later, n.history calls = before ++ created :: later →
      Tenure p bundle before created later →
      ∃ sidechain r, p.sidechain? bundle.sidechain = some sidechain ∧
        (n.run calls).chain.state.find? bundle = some r ∧
        r.workscore = ((lastScore? bundle ((created :: later).flatMap Change.updates)).map
          (clampScore sidechain.period)).getD p.initialScore ∧
        (lastScore? bundle ((created :: later).flatMap Change.updates) = none →
          ∃ height proposals, created = .boundary height proposals ∧
            bundle.sidechain ∈ p.sidechains.elapsedAt height ∧ bundle ∈ proposals) ∧
        ((n.run calls).chain.passes bundle = true ↔
          ∃ score, lastScore? bundle ((created :: later).flatMap Change.updates) = some score ∧
            (sidechain.threshold.toNat : Int) ≤ score.toInt)) ∧
    ((n.run calls).chain.passes bundle = true →
      ((n.run calls).chain.state.find? bundle).isSome) := by
  obtain ⟨hp, rfl⟩ := start_eq_ok_iff.mp hn
  have hstate : ((fresh p).run calls).chain.state =
      State.ofChanges p ((fresh p).history calls) := state_run (.fresh p) calls
  have hparams : ((fresh p).run calls).chain.params = p := (Sound.fresh p).params_run calls
  unfold Chain.passes
  rw [hparams, hstate]
  refine ⟨rfl, State.exists_tenure, ?_, ?_⟩
  · intro before created later hhistory htenure
    rw [hhistory]
    have htracked := htenure.tracked later List.prefix_rfl
    obtain ⟨sidechain, hs⟩ := (State.legal_ofChanges p _).registered htracked
    obtain ⟨r, hr⟩ := Option.isSome_iff_exists.mp htracked
    have hscore := htenure.workscore?_eq hp hs
    rw [State.workscore?, hr, Option.map_some] at hscore
    refine ⟨sidechain, r, hs, hr, Option.some.inj hscore, htenure.created_of_unnamed hp hs, ?_⟩
    rw [hs, Option.any_some]
    exact htenure.passes_iff hp hs
  · intro hpasses
    cases hs : p.sidechain? bundle.sidechain with
    | none =>
      rw [hs] at hpasses
      cases hpasses
    | some sidechain =>
      rw [hs, Option.any_some] at hpasses
      obtain ⟨w, hw, -⟩ := (State.passes_iff hs).mp hpasses
      exact State.tracked_iff_workscore?.mpr (by rw [hw]; rfl)

/-- A proposal is seeded at the end of a period, and the next block commits to a vote on it. Two
more packages wait for that block, with other scores for the bundle. -/
theorem tenure_of_voted_proposal :
    let p : Params := {}
    let bundle : Bundle := ⟨0, Block.zero 32⟩
    let vote : Package := ⟨301, [⟨bundle, 150⟩]⟩
    let gathering : List Call :=
      [.connect 300 (Coinbase.dataOutputs p.commitmentTag p.proposalTag none [bundle]),
        .add ⟨301, [⟨bundle, 9⟩]⟩, .add vote, .add ⟨301, [⟨bundle, 250⟩]⟩]
    let calls : List Call := gathering ++ [.connect 301 (Coinbase.dataOutputs p.commitmentTag
      p.proposalTag (some (((fresh p).run gathering).predictCommitment vote)) [])]
    (((fresh p).run gathering).buffer.packagesAt 301).length = 3 ∧
      (fresh p).history calls = [.boundary 300 [bundle], .selection [⟨bundle, 150⟩]] ∧
      Tenure p bundle [] (.boundary 300 [bundle]) [.selection [⟨bundle, 150⟩]] ∧
      (∃ r, ((fresh p).run calls).chain.state.find? bundle = some r ∧ r.workscore = 150) ∧
      ((fresh p).run calls).chain.passes bundle = true := by
  intro p bundle vote gathering calls
  have hstart : start p = .ok (fresh p) := start_of_check (by decide +kernel)
  have hhistory : (fresh p).history calls =
      [.boundary 300 [bundle], .selection [⟨bundle, 150⟩]] := by decide +kernel
  have htenure : Tenure p bundle [] (.boundary 300 [bundle]) [.selection [⟨bundle, 150⟩]] :=
    { begins := Or.inl (by decide +kernel)
      tracked := by
        intro done hdone
        rcases List.prefix_cons_iff.mp hdone with rfl | ⟨rest, rfl, hrest⟩
        · decide +kernel
        · rw [List.prefix_nil.mp hrest]
          decide +kernel
      unbroken := by
        intro x hx
        rw [List.mem_singleton.mp hx]
        exact id }
  obtain ⟨-, -, hlast, -⟩ := workscore_of_last_committed_vote hstart calls bundle
  obtain ⟨sidechain, r, hs, hr, hscore, -, hpasses⟩ := hlast [] _ _ hhistory htenure
  obtain rfl : ⟨0, "test", 300, 100⟩ = sidechain := Option.some.inj hs
  refine ⟨by decide +kernel, hhistory, htenure, ⟨r, hr, ?_⟩, hpasses.mpr ⟨150, ?_, by decide⟩⟩
  · rw [hscore]
    decide +kernel
  · decide +kernel

end Runs

end Node

end BundleTracker
