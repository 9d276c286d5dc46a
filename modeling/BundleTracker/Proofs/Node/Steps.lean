import Mathlib.Tactic
import BundleTracker.Node
import BundleTracker.Proofs.Chain.Steps

/-!
# What a call does to a node

A block is refused, stalls, or goes through, and then its periods are ended as well:
no call fails half way. A failed call leaves the chain up to its stall counts, and the
whole buffer, as they were.
-/

namespace BundleTracker

namespace Node

variable {n : Node} {height : UInt64}

/-- The candidate at `height` by a selection of the packages that wait there. -/
def candidate (n : Node) (height : UInt64) (source : Source) : Candidate :=
  .build n.chain.params n.chain.state height (n.buffer.packagesAt height) source

def Selects (n : Node) (height : UInt64) (source : Source) : Prop :=
  source.Admissible (n.buffer.packagesAt height).length n.chain.params.maxCombination.toNat

def IsFirst (n : Node) (height : UInt64) (hash : Digest) (source : Source) : Prop :=
  source.IsFirst (n.buffer.packagesAt height).length n.chain.params.maxCombination.toNat
    fun s => (n.candidate height s).hash = hash

def NoneMatches (n : Node) (height : UInt64) (hash : Digest) : Prop :=
  ∀ source : Source, n.Selects height source → (n.candidate height source).hash ≠ hash

/-- The number of selections at `height`. -/
def selections (n : Node) (height : UInt64) : Nat :=
  ∑ size ∈ Finset.range
    (min (n.buffer.packagesAt height).length (max 1 n.chain.params.maxCombination.toNat) + 1),
      (n.buffer.packagesAt height).length.choose size

/-- The node with a candidate as its canonical state and the packages up to it dropped. -/
def adopt (n : Node) (candidate : Candidate) : Node :=
  { n with chain := n.chain.adopt candidate, buffer := n.buffer.pruneThrough candidate.height }

/-- The node with one more stall at `height`, which its subscribers have heard of. -/
def stall (n : Node) (height : UInt64) (expected : Digest) : Node :=
  let counted := n.chain.recordStall height expected (n.selections height)
  { n with chain := counted.1 }.publish [.stalled counted.2]

theorem sameButStalls_stall (n : Node) (height : UInt64) (expected : Digest) :
    n.chain.SameButStalls (n.stall height expected).chain :=
  n.chain.sameButStalls_recordStall height expected (n.selections height)

def pass (n : Node) (height : UInt64) : Node :=
  { n with chain := { n.chain with tip := some height }, buffer := n.buffer.pruneThrough height }

inductive Settles (n : Node) (height : UInt64) (commitment : Digest) :
    Node × Except ChainError Event → Prop
  | refused {e : ChainError} : n.chain.checkHeight height = .error e →
      Settles n height commitment (n, .error e)
  | settled {source : Source} : n.chain.checkHeight height = .ok () →
      n.IsFirst height commitment source →
      Settles n height commitment
        (n.adopt (n.candidate height source), .ok (n.candidate height source).event)
  | stalled : n.chain.checkHeight height = .ok () → n.NoneMatches height commitment →
      Settles n height commitment (n.stall height commitment,
        .error (.stall (n.chain.recordStall height commitment (n.selections height)).2))

theorem settles (hlegal : n.chain.Legal) (height : UInt64) (commitment : Digest) :
    n.Settles height commitment (n.settle height commitment) := by
  have h := hlegal.reconciles height commitment (n.buffer.packagesAt height)
  unfold settle
  generalize n.chain.reconcile height commitment (n.buffer.packagesAt height) = result at h
  cases h with
  | @refused e hheight =>
    obtain ⟨next, -, -, rfl⟩ := Chain.checkHeight_eq_error hheight
    exact .refused hheight
  | settled hheight hfirst => exact .settled hheight hfirst
  | stalled hheight hnone htried =>
    subst htried
    exact .stalled hheight hnone

inductive Reconciles (n : Node) (height : UInt64) (commitment : Digest) :
    Node × Except ChainError Digest → Prop
  | refused {e : ChainError} : n.chain.checkHeight height = .error e →
      Reconciles n height commitment (n, .error e)
  | settled {source : Source} : n.chain.checkHeight height = .ok () →
      n.IsFirst height commitment source →
      Reconciles n height commitment
        ((n.adopt (n.candidate height source)).publish [(n.candidate height source).event],
          .ok (n.candidate height source).hash)
  | stalled : n.chain.checkHeight height = .ok () → n.NoneMatches height commitment →
      Reconciles n height commitment (n.stall height commitment,
        .error (.stall (n.chain.recordStall height commitment (n.selections height)).2))

theorem reconciles (hlegal : n.chain.Legal) (height : UInt64) (commitment : Digest) :
    n.Reconciles height commitment (n.reconcile height commitment) := by
  have h := n.settles hlegal height commitment
  unfold reconcile
  generalize n.settle height commitment = result at h
  cases h with
  | refused hheight => exact .refused hheight
  | settled hheight hfirst => exact .settled hheight hfirst
  | stalled hheight hnone => exact .stalled hheight hnone

/-- The node after the periods that end at `height`, and all events of the block. -/
def finish (n : Node) (height : UInt64) (outputs : List Output) (events : List Event) :
    Node × List Event :=
  let ended := n.chain.endPeriods height (Coinbase.proposals n.chain.params.proposalTag outputs)
  ({ n with chain := ended.1 }.publish (events ++ ended.2.toList), events ++ ended.2.toList)

@[simp] theorem params_finish (n : Node) (height : UInt64) (outputs : List Output)
    (events : List Event) : (n.finish height outputs events).1.chain.params = n.chain.params :=
  Chain.params_endPeriods _

@[simp] theorem tip_finish (n : Node) (height : UInt64) (outputs : List Output)
    (events : List Event) : (n.finish height outputs events).1.chain.tip = n.chain.tip :=
  Chain.tip_endPeriods _

theorem connectBlock_of_advance {m : Node} {outputs : List Output} {commitment : Option Digest}
    {events : List Event}
    (hfound : Coinbase.findCommitment n.chain.params.commitmentTag outputs = .ok commitment)
    (hadvance : n.advance height commitment = (m, .ok events)) (hlegal : m.chain.Legal)
    (htip : m.chain.tip = some height) :
    n.connectBlock height outputs = ((m.finish height outputs events).1,
      .ok ⟨commitment, (m.finish height outputs events).2⟩) := by
  have hlast : ∀ tip, m.chain.tip = some tip → tip = height := by
    intro tip htip'
    exact Option.some.inj (htip'.symm.trans htip)
  simp only [connectBlock, hfound, hadvance, hlegal.boundary_eq hlast]
  rfl

inductive Connects (n : Node) (height : UInt64) (outputs : List Output) :
    Node × Except ChainError BlockOutcome → Prop
  | conflict {conflict : Coinbase.Conflict} :
      Coinbase.findCommitment n.chain.params.commitmentTag outputs = .error conflict →
      Connects n height outputs (n, .error (.coinbase conflict))
  | refused {e : ChainError} : n.chain.checkHeight height = .error e →
      Connects n height outputs (n, .error e)
  | settled {commitment : Digest} {source : Source} :
      Coinbase.findCommitment n.chain.params.commitmentTag outputs = .ok (some commitment) →
      n.chain.checkHeight height = .ok () → n.IsFirst height commitment source →
      Connects n height outputs
        (((n.adopt (n.candidate height source)).finish height outputs
            [(n.candidate height source).event]).1,
          .ok ⟨some commitment, ((n.adopt (n.candidate height source)).finish height outputs
            [(n.candidate height source).event]).2⟩)
  | stalled {commitment : Digest} :
      Coinbase.findCommitment n.chain.params.commitmentTag outputs = .ok (some commitment) →
      n.chain.checkHeight height = .ok () → n.NoneMatches height commitment →
      Connects n height outputs (n.stall height commitment,
        .error (.stall (n.chain.recordStall height commitment (n.selections height)).2))
  | passed : Coinbase.findCommitment n.chain.params.commitmentTag outputs = .ok none →
      n.chain.checkHeight height = .ok () →
      Connects n height outputs
        (((n.pass height).finish height outputs []).1,
          .ok ⟨none, ((n.pass height).finish height outputs []).2⟩)

theorem connects (hlegal : n.chain.Legal) (height : UInt64) (outputs : List Output) :
    n.Connects height outputs (n.connectBlock height outputs) := by
  cases hfound : Coinbase.findCommitment n.chain.params.commitmentTag outputs with
  | error conflict =>
    simp only [connectBlock, hfound]
    exact .conflict hfound
  | ok commitment =>
    cases commitment with
    | some commitment =>
      have h := n.settles hlegal height commitment
      cases hsettle : n.settle height commitment with
      | mk m result =>
        rw [hsettle] at h
        cases h with
        | refused hheight =>
          simp only [connectBlock, hfound, advance, hsettle]
          exact .refused hheight
        | @settled source hheight hfirst =>
          have hadvance : n.advance height (some commitment) =
              (n.adopt (n.candidate height source), .ok [(n.candidate height source).event]) := by
            simp only [advance, hsettle]
          rw [connectBlock_of_advance hfound hadvance (hlegal.adopt height _ _) rfl]
          exact .settled hfound hheight hfirst
        | stalled hheight hnone =>
          simp only [connectBlock, hfound, advance, hsettle]
          exact .stalled hfound hheight hnone
    | none =>
      cases hheight : n.chain.checkHeight height with
      | error e =>
        simp only [connectBlock, hfound, advance, skip, Chain.skip_eq_error hheight]
        exact .refused hheight
      | ok _ =>
        have hadvance : n.advance height none = (n.pass height, .ok []) := by
          simp only [advance, skip, Chain.skip_eq hheight]
          rfl
        rw [connectBlock_of_advance hfound hadvance hlegal rfl]
        exact .passed hfound hheight

/-- A block with a commitment, at a height that is accepted, settles on the first selection with
the hash or stalls. -/
theorem connectBlock_of_commitment {outputs : List Output} {commitment : Digest}
    (hlegal : n.chain.Legal) (hheight : n.chain.checkHeight height = .ok ())
    (hfound : Coinbase.findCommitment n.chain.params.commitmentTag outputs =
      .ok (some commitment)) :
    (∃ source, n.IsFirst height commitment source ∧
      n.connectBlock height outputs =
        (((n.adopt (n.candidate height source)).finish height outputs
            [(n.candidate height source).event]).1,
          .ok ⟨some commitment, ((n.adopt (n.candidate height source)).finish height outputs
            [(n.candidate height source).event]).2⟩)) ∨
      n.NoneMatches height commitment ∧ n.connectBlock height outputs = (n.stall height commitment,
        .error (.stall (n.chain.recordStall height commitment (n.selections height)).2)) := by
  have hstep := n.connects hlegal height outputs
  generalize n.connectBlock height outputs = result at hstep ⊢
  cases hstep with
  | conflict hconflict =>
    rw [hfound] at hconflict
    cases hconflict
  | refused herror =>
    rw [hheight] at herror
    cases herror
  | @settled _ source hfound' _ hfirst =>
    rw [hfound] at hfound'
    cases hfound'
    exact Or.inl ⟨source, hfirst, rfl⟩
  | stalled hfound' _ hnone =>
    rw [hfound] at hfound'
    cases hfound'
    exact Or.inr ⟨hnone, rfl⟩
  | passed hfound' _ =>
    rw [hfound] at hfound'
    cases hfound'

/-- The state that a connected block made canonical before periods ended: the one of the candidate
by the selection that the block announced. -/
def committed? (n : Node) (height : UInt64) (outcome : BlockOutcome) : Option State :=
  outcome.events.findSome? fun
    | .reconciled _ _ source _ => some (n.candidate height source).state
    | _ => none

theorem committed?_finish_pass (n : Node) (height : UInt64) (outputs : List Output) :
    n.committed? height ⟨none, ((n.pass height).finish height outputs []).2⟩ = none := by
  unfold committed? finish Chain.endPeriods
  split <;> rfl

/-- The chain of the node that is returned has the committed state as its canonical state, under the
hash in the block, and without a commitment only the tip moves; then the periods that end at the
height are ended. -/
theorem chain_connectBlock {m : Node} {outputs : List Output} {outcome : BlockOutcome}
    (hlegal : n.chain.Legal) (hok : n.connectBlock height outputs = (m, .ok outcome)) :
    Coinbase.findCommitment n.chain.params.commitmentTag outputs = .ok outcome.commitment ∧
      ((∃ source, n.committed? height outcome = some (n.candidate height source).state ∧
          outcome.commitment = some (n.candidate height source).hash ∧
          m.chain = ((n.chain.adopt (n.candidate height source)).endPeriods height
            (Coinbase.proposals n.chain.params.proposalTag outputs)).1) ∨
        n.committed? height outcome = none ∧ outcome.commitment = none ∧
          m.chain = (({ n.chain with tip := some height } : Chain).endPeriods height
            (Coinbase.proposals n.chain.params.proposalTag outputs)).1) := by
  have hstep := n.connects hlegal height outputs
  rw [hok] at hstep
  cases hstep with
  | @settled commitment source hfound _ hfirst =>
    obtain ⟨-, rfl, -⟩ := hfirst
    exact ⟨hfound, Or.inl ⟨source, rfl, rfl, rfl⟩⟩
  | passed hfound _ =>
    exact ⟨hfound, Or.inr ⟨n.committed?_finish_pass height outputs, rfl, rfl⟩⟩

end Node

end BundleTracker
