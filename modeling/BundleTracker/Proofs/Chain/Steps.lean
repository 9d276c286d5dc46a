import Mathlib.Tactic
import BundleTracker.Chain.Basic
import BundleTracker.Proofs.Candidate.Search
import BundleTracker.Proofs.State.Legality

/-!
# What a step does to a chain

On a chain with a legal state the legality check at a commit and at the end of a
period always succeeds. So a block with a commitment is refused for its height,
settled with the first candidate that has the hash, or stalled, and nothing else; and
periods always end for the block that was processed last.
-/

namespace BundleTracker

def Candidate.event (candidate : Candidate) : Event :=
  .reconciled candidate.height candidate.hash candidate.source (candidate.expired.map (·.bundle))

namespace Chain

variable {c : Chain} {height : UInt64}

def Legal (c : Chain) : Prop := c.state.Legal c.params.sidechains

/-- The chain with a candidate as its canonical state. -/
def adopt (c : Chain) (candidate : Candidate) : Chain :=
  { c with
    state := candidate.state
    hash := candidate.hash
    tip := some candidate.height
    stalls := c.stalls.filter fun h _ => nextHeight candidate.height ≤ h }

theorem checkHeight_eq_ok_iff :
    c.checkHeight height = .ok () ↔ ∀ tip, c.tip = some tip → nextHeight tip = height := by
  unfold checkHeight next?
  cases htip : c.tip with
  | none => simp
  | some tip =>
    simp only [Option.map_some, Option.some.injEq, forall_eq']
    split_ifs with h
    · simp [h]
    · simp [h]

/-- The height that is accepted is one above the tip, or both are the greatest one. -/
theorem succ_or_greatest_of_checkHeight {tip : UInt64} (hheight : c.checkHeight height = .ok ())
    (htip : c.tip = some tip) :
    height.toNat = tip.toNat + 1 ∨ tip = 0xffffffffffffffff ∧ height = 0xffffffffffffffff := by
  have hnext := checkHeight_eq_ok_iff.mp hheight tip htip
  have hlt := tip.toNat_lt
  by_cases hgreatest : tip = 0xffffffffffffffff
  · rw [hgreatest] at hnext
    exact Or.inr ⟨hgreatest, hnext.symm⟩
  · have hne : tip.toNat ≠ 0xffffffffffffffff := fun h => hgreatest (UInt64.toNat_inj.mp h)
    left
    rw [← hnext, toNat_nextHeight]
    omega

theorem checkHeight_eq_error {e : ChainError} (h : c.checkHeight height = .error e) :
    ∃ next, c.next? = some next ∧ next ≠ height ∧ e = .outOfOrder next height := by
  unfold checkHeight at h
  split at h
  · rename_i next hnext
    split_ifs at h with heq
    exact ⟨next, hnext, heq, (Except.error.inj h).symm⟩
  · cases h

theorem commit_eq {candidate : Candidate} (hheight : c.checkHeight candidate.height = .ok ())
    (hlegal : candidate.state.Legal c.params.sidechains) :
    c.commit candidate = .ok (c.adopt candidate, candidate.event) := by
  simp only [commit, hheight, State.check_eq_ok_iff_legal.mpr hlegal]
  rfl

inductive Reconciles (c : Chain) (height : UInt64) (expected : Digest) (packages : List Package) :
    Chain × Except ChainError Event → Prop
  | refused {e : ChainError} : c.checkHeight height = .error e →
      Reconciles c height expected packages (c, .error e)
  | settled {source : Source} : c.checkHeight height = .ok () →
      source.IsFirst packages.length c.params.maxCombination.toNat
        (fun s => (Candidate.build c.params c.state height packages s).hash = expected) →
      Reconciles c height expected packages
        (c.adopt (Candidate.build c.params c.state height packages source),
          .ok (Candidate.build c.params c.state height packages source).event)
  | stalled {tried : Nat} : c.checkHeight height = .ok () →
      (∀ source : Source, source.Admissible packages.length c.params.maxCombination.toNat →
        (Candidate.build c.params c.state height packages source).hash ≠ expected) →
      tried = ∑ size ∈ Finset.range
        (min packages.length (max 1 c.params.maxCombination.toNat) + 1),
          packages.length.choose size →
      Reconciles c height expected packages
        ((c.recordStall height expected tried).1,
          .error (.stall (c.recordStall height expected tried).2))

theorem Legal.reconciles (hlegal : c.Legal) (height : UInt64) (expected : Digest)
    (packages : List Package) :
    c.Reconciles height expected packages (c.reconcile height expected packages) := by
  cases hheight : c.checkHeight height with
  | error e =>
    have hsearch : c.search height expected packages = .error e := by
      simp only [search, hheight]
      rfl
    rw [reconcile, hsearch]
    exact .refused hheight
  | ok _ =>
    have hsearch : c.search height expected packages =
        .ok (Candidate.search c.params c.state height packages expected) := by
      simp only [search, hheight]
      rfl
    rw [reconcile, hsearch]
    cases hfound : Candidate.search c.params c.state height packages expected with
    | error tried =>
      obtain ⟨hnone, htried⟩ := Candidate.all_tried_of_search hfound
      exact .stalled hheight hnone htried
    | ok candidate =>
      obtain ⟨source, hfirst, rfl⟩ := Candidate.isFirst_of_search hfound
      have hcommit : c.commit (Candidate.build c.params c.state height packages source) = _ :=
        commit_eq hheight (State.Legal.build hlegal height packages source)
      simp only [hcommit]
      exact .settled hheight hfirst

theorem skip_eq (hheight : c.checkHeight height = .ok ()) :
    c.skip height = .ok { c with tip := some height } := by
  simp only [skip, hheight]
  rfl

theorem skip_eq_error {e : ChainError} (hheight : c.checkHeight height = .error e) :
    c.skip height = .error e := by
  simp only [skip, hheight]
  rfl

/-- Whether the block at `height` ends no period, or its periods were ended before. -/
def NothingEnds (c : Chain) (height : UInt64) (proposals : List Bundle) : Prop :=
  c.lastBoundary = some height ∨ (c.state.boundary c.params height proposals).2.cleared = [] ∧
    (c.state.boundary c.params height proposals).2.seeded = []

instance (height : UInt64) (proposals : List Bundle) : Decidable (c.NothingEnds height proposals) :=
  inferInstanceAs (Decidable (_ ∨ _ ∧ _))

/-- The chain after the periods that end at `height`, and the event if there are any. -/
def endPeriods (c : Chain) (height : UInt64) (proposals : List Bundle) : Chain × Option Event :=
  if c.NothingEnds height proposals then (c, none)
  else
    ({ c with
        state := (c.state.boundary c.params height proposals).1
        hash := (c.state.boundary c.params height proposals).1.hash
        lastBoundary := some height },
      some (.periodBoundary height (c.state.boundary c.params height proposals).2))

theorem Legal.boundary_eq (hlegal : c.Legal) (htip : ∀ tip, c.tip = some tip → tip = height)
    (proposals : List Bundle) :
    c.boundary height proposals = .ok (c.endPeriods height proposals) := by
  have hcheck : (c.state.boundary c.params height proposals).1.check c.params.sidechains = .ok () :=
    State.check_eq_ok_iff_legal.mpr (State.Legal.boundary hlegal height proposals)
  unfold boundary
  extract_lets proceed
  have hproceed : proceed () = .ok (c.endPeriods height proposals) := by
    by_cases hlast : c.lastBoundary = some height
    · have hnothing : c.NothingEnds height proposals := Or.inl hlast
      rw [Chain.endPeriods, if_pos hnothing]
      exact if_pos hlast
    · simp only [proceed]
      rw [if_neg hlast]
      by_cases hempty : (c.state.boundary c.params height proposals).2.cleared = [] ∧
          (c.state.boundary c.params height proposals).2.seeded = []
      · have hnothing : c.NothingEnds height proposals := Or.inr hempty
        rw [if_pos hempty, Chain.endPeriods, if_pos hnothing]
        rfl
      · have hends : ¬ c.NothingEnds height proposals := not_or.mpr ⟨hlast, hempty⟩
        rw [if_neg hempty, Chain.endPeriods, if_neg hends, hcheck]
        rfl
  split
  · rename_i tip hc
    rw [if_neg (not_not_intro (htip tip hc))]
    exact hproceed
  · exact hproceed

structure SameButStalls (c d : Chain) : Prop where
  params_eq : d.params = c.params
  state_eq : d.state = c.state
  hash_eq : d.hash = c.hash
  tip_eq : d.tip = c.tip
  lastBoundary_eq : d.lastBoundary = c.lastBoundary

theorem SameButStalls.refl (c : Chain) : c.SameButStalls c := ⟨rfl, rfl, rfl, rfl, rfl⟩

theorem sameButStalls_recordStall (c : Chain) (height : UInt64) (expected : Digest) (tried : Nat) :
    c.SameButStalls (c.recordStall height expected tried).1 := ⟨rfl, rfl, rfl, rfl, rfl⟩

section Parts

@[simp] theorem params_endPeriods (proposals : List Bundle) :
    (c.endPeriods height proposals).1.params = c.params := by
  unfold endPeriods
  split <;> rfl

@[simp] theorem tip_endPeriods (proposals : List Bundle) :
    (c.endPeriods height proposals).1.tip = c.tip := by
  unfold endPeriods
  split <;> rfl

end Parts

namespace Legal

theorem start (p : Params) : (Chain.start p).Legal := State.Legal.empty _

theorem adopt (hlegal : c.Legal) (height : UInt64) (packages : List Package) (source : Source) :
    (c.adopt (Candidate.build c.params c.state height packages source)).Legal :=
  State.Legal.build hlegal height packages source

theorem endPeriods (hlegal : c.Legal) (height : UInt64) (proposals : List Bundle) :
    (c.endPeriods height proposals).1.Legal := by
  unfold Chain.endPeriods
  split
  · exact hlegal
  · exact State.Legal.boundary hlegal height proposals

end Legal

end Chain

end BundleTracker
