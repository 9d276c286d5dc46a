import Mathlib.Tactic
import BundleTracker.Proofs.Chain.Runs
import BundleTracker.Proofs.State.LifeSpan

/-!
# The changes that a chain goes through

A call that goes through announces what it did, and the announcement tells how the canonical state
has changed. The state after a run of blocks is what these changes, in their order, make of the
state before it. Blocks that are refused, stalled or have no commitment change nothing.
-/

namespace BundleTracker

/-- The change that an event tells of, by the packages and the proposals that were at hand. -/
def Event.change? (packages : List Package) (proposals : List Bundle) : Event → Option Change
  | .reconciled _ _ source _ => some (.selection (source.updates packages))
  | .stalled _ => none
  | .periodBoundary height _ => some (.boundary height proposals)
  | .reset => some .reset

namespace Chain

variable {c : Chain} {x : Call} {event : Event} {height : UInt64}

theorem state_endPeriods (c : Chain) (height : UInt64) (packages : List Package)
    (proposals : List Bundle) :
    (c.endPeriods height proposals).1.state =
      ((c.endPeriods height proposals).2.toList.filterMap
        (Event.change? packages proposals)).foldl (State.change c.params) c.state := by
  unfold endPeriods
  split <;> rfl

namespace Call

/-- Whether the call processes a block, with a commitment or without one, or ends its periods. -/
def OfBlock : Call → Prop
  | .reconcile _ _ _ | .skip _ | .boundary _ _ => True
  | _ => False

instance : DecidablePred OfBlock := fun x => by
  cases x <;> unfold OfBlock <;> infer_instance

def packages : Call → List Package
  | .reconcile _ _ packages => packages
  | _ => []

def proposals : Call → List Bundle
  | .boundary _ proposals => proposals
  | _ => []

end Call

/-- The event that a call announces, if it goes through. -/
def event? (c : Chain) : Call → Option Event
  | .reconcile height expected packages => (c.reconcile height expected packages).2.toOption
  | .commit candidate => (c.commit candidate).toOption.map (·.2)
  | .skip _ => none
  | .boundary height proposals => (c.boundary height proposals).toOption.bind (·.2)
  | .recordStall _ _ _ => none
  | .reset => some c.reset.2

/-- The changes that some calls make to the canonical state, in their order. -/
def history (c : Chain) : List Call → List Change
  | [] => []
  | x :: rest =>
    ((c.event? x).bind (Event.change? x.packages x.proposals)).toList ++ (c.call x).history rest

section Steps

theorem Legal.event_reconcile (hlegal : c.Legal) {expected : Digest} {packages : List Package}
    (h : c.event? (.reconcile height expected packages) = some event) :
    ∃ source : Source,
      event = .reconciled height expected source
        (c.state.expiredBy c.params (source.updates packages)) ∧
      (c.call (.reconcile height expected packages)).state =
        c.state.change c.params (.selection (source.updates packages)) := by
  have hstep := hlegal.reconciles height expected packages
  unfold event? at h
  unfold Chain.call
  dsimp only at h ⊢
  generalize c.reconcile height expected packages = result at h hstep ⊢
  cases hstep with
  | refused _ => cases h
  | @settled source _ hfirst =>
    obtain rfl := Option.some.inj h
    obtain ⟨-, rfl, -⟩ := hfirst
    refine ⟨source, ?_, Candidate.state_build _ _ height _ _⟩
    rw [← Candidate.selected_eq]
    rfl
  | stalled _ _ _ => cases h

theorem Legal.event_boundary (hlegal : c.Legal) {proposals : List Bundle}
    (h : c.event? (.boundary height proposals) = some event) :
    event = .periodBoundary height (c.state.boundary c.params height proposals).2 ∧
      (c.call (.boundary height proposals)).state =
        c.state.change c.params (.boundary height proposals) := by
  unfold event? at h
  unfold Chain.call
  dsimp only at h ⊢
  rcases hlegal.boundary_cases height proposals with hok | ⟨tip, -, -, herror⟩
  · rw [hok] at h ⊢
    simp only [Except.toOption, Option.bind_some, Chain.endPeriods] at h
    split_ifs at h with hnothing
    obtain rfl := Option.some.inj h
    refine ⟨rfl, ?_⟩
    simp [Chain.endPeriods, hnothing, Except.map, orKeep, State.change]
  · rw [herror] at h
    cases h

theorem Legal.state_of_event?_eq_none (hlegal : c.Legal) (hx : x.OfBlock)
    (h : c.event? x = none) : (c.call x).state = c.state := by
  cases x with
  | reconcile height expected packages =>
    have hstep := hlegal.reconciles height expected packages
    unfold event? at h
    unfold Chain.call
    dsimp only at h ⊢
    generalize c.reconcile height expected packages = result at h hstep ⊢
    cases hstep with
    | refused _ => rfl
    | settled _ _ => cases h
    | stalled _ _ _ => rfl
  | skip height =>
    cases hheight : c.checkHeight height with
    | error e => rw [Chain.call, skip_eq_error hheight]; rfl
    | ok _ => rw [Chain.call, skip_eq hheight]; rfl
  | boundary height proposals =>
    unfold event? at h
    unfold Chain.call
    dsimp only at h ⊢
    rcases hlegal.boundary_cases height proposals with hok | ⟨tip, -, -, herror⟩
    · rw [hok] at h ⊢
      simp only [Except.toOption, Option.bind_some, Chain.endPeriods] at h
      split_ifs at h with hnothing
      simp [Chain.endPeriods, hnothing, Except.map, orKeep]
    · rw [herror]
      rfl
  | commit candidate => exact hx.elim
  | recordStall height expected tried => exact hx.elim
  | reset => exact hx.elim

theorem Legal.state_call (hlegal : c.Legal) (hx : x.OfBlock) :
    (c.call x).state = ((c.event? x).bind
      (Event.change? x.packages x.proposals)).toList.foldl (State.change c.params) c.state := by
  cases hevent : c.event? x with
  | none => exact hlegal.state_of_event?_eq_none hx hevent
  | some event =>
    cases x with
    | reconcile height expected packages =>
      obtain ⟨source, rfl, hstate⟩ := hlegal.event_reconcile hevent
      exact hstate
    | skip height => cases hevent
    | boundary height proposals =>
      obtain ⟨rfl, hstate⟩ := hlegal.event_boundary hevent
      exact hstate
    | commit candidate => exact hx.elim
    | recordStall height expected tried => exact hx.elim
    | reset => exact hx.elim

end Steps

/-- The state after a run of blocks is made by the changes that the calls announce. -/
theorem Legal.state_run (hlegal : c.Legal) {calls : List Call} (hcalls : ∀ x ∈ calls, x.OfBlock) :
    (c.run calls).state = (c.history calls).foldl (State.change c.params) c.state := by
  induction calls generalizing c with
  | nil => rfl
  | cons x rest ih =>
    have hrest := ih (hlegal.call x) fun y hy => hcalls y (List.mem_cons_of_mem x hy)
    rw [params_call hlegal] at hrest
    rw [run_cons, hrest, history, List.foldl_append,
      hlegal.state_call (hcalls x List.mem_cons_self)]

end Chain

end BundleTracker
