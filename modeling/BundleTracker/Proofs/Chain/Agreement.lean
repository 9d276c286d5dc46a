import Mathlib.Tactic
import BundleTracker.Proofs.Chain.Steps

/-!
# Chains that follow the same blocks

What a block does to a chain depends on its height, the outputs of its coinbase and the
state that its commitment makes canonical. Limits do not come in: chains under the same
rules that agree before a block agree after it, whatever they stalled at before.
-/

namespace BundleTracker

/-- The parameters that decide what a block does are equal. Limits may differ. -/
structure Params.SameRules (p q : Params) : Prop where
  commitmentTag_eq : p.commitmentTag = q.commitmentTag
  proposalTag_eq : p.proposalTag = q.proposalTag
  initialScore_eq : p.initialScore = q.initialScore
  sidechains_eq : p.sidechains = q.sidechains

namespace Params.SameRules

variable {p q r : Params}

theorem refl (p : Params) : p.SameRules p := ⟨rfl, rfl, rfl, rfl⟩

theorem symm (h : p.SameRules q) : q.SameRules p where
  commitmentTag_eq := h.commitmentTag_eq.symm
  proposalTag_eq := h.proposalTag_eq.symm
  initialScore_eq := h.initialScore_eq.symm
  sidechains_eq := h.sidechains_eq.symm

theorem trans (h : p.SameRules q) (h' : q.SameRules r) : p.SameRules r where
  commitmentTag_eq := h.commitmentTag_eq.trans h'.commitmentTag_eq
  proposalTag_eq := h.proposalTag_eq.trans h'.proposalTag_eq
  initialScore_eq := h.initialScore_eq.trans h'.initialScore_eq
  sidechains_eq := h.sidechains_eq.trans h'.sidechains_eq

theorem seed_eq (h : p.SameRules q) (s : State) (opened : List UInt8) (proposals : List Bundle) :
    s.seed p opened proposals = s.seed q opened proposals := by
  have hadmits : ∀ (s : State) (bundle : Bundle), s.admits p opened bundle =
      s.admits q opened bundle := by
    intro s bundle
    unfold State.admits Params.sidechain?
    rw [h.sidechains_eq]
  have htrack : ∀ (s : State) (sidechain : Sidechain) (bundle : Bundle),
      s.track p sidechain bundle = s.track q sidechain bundle := by
    intro s sidechain bundle
    unfold State.track
    rw [h.initialScore_eq]
  induction proposals generalizing s with
  | nil => rfl
  | cons bundle rest ih =>
    simp only [State.seed, hadmits, htrack, ih]

theorem boundary_eq (h : p.SameRules q) (s : State) (height : UInt64) (proposals : List Bundle) :
    s.boundary p height proposals = s.boundary q height proposals := by
  simp only [State.boundary, h.sidechains_eq, h.seed_eq]

end Params.SameRules

/-- A block that went through, with the state that its commitment made canonical. -/
@[ext] structure ConnectedBlock where
  height : UInt64
  outputs : List Output
  committed : Option State
  deriving DecidableEq

namespace Chain

variable {c d e : Chain}

/-- Under the same rules, everything but the stall counts is equal. -/
structure Agrees (c d : Chain) : Prop where
  rules : c.params.SameRules d.params
  state_eq : c.state = d.state
  hash_eq : c.hash = d.hash
  tip_eq : c.tip = d.tip
  lastBoundary_eq : c.lastBoundary = d.lastBoundary

theorem Agrees.refl (c : Chain) : c.Agrees c := ⟨.refl _, rfl, rfl, rfl, rfl⟩

theorem Agrees.symm (h : c.Agrees d) : d.Agrees c where
  rules := h.rules.symm
  state_eq := h.state_eq.symm
  hash_eq := h.hash_eq.symm
  tip_eq := h.tip_eq.symm
  lastBoundary_eq := h.lastBoundary_eq.symm

theorem Agrees.trans (h : c.Agrees d) (h' : d.Agrees e) : c.Agrees e where
  rules := h.rules.trans h'.rules
  state_eq := h.state_eq.trans h'.state_eq
  hash_eq := h.hash_eq.trans h'.hash_eq
  tip_eq := h.tip_eq.trans h'.tip_eq
  lastBoundary_eq := h.lastBoundary_eq.trans h'.lastBoundary_eq

theorem SameButStalls.agrees (h : c.SameButStalls d) : c.Agrees d where
  rules := by
    rw [h.params_eq]
    exact .refl _
  state_eq := h.state_eq.symm
  hash_eq := h.hash_eq.symm
  tip_eq := h.tip_eq.symm
  lastBoundary_eq := h.lastBoundary_eq.symm

theorem Agrees.predict_hash (h : c.Agrees d) (p : Package) :
    (c.predict p).hash = (d.predict p).hash := by
  simp only [predict, Candidate.build, h.state_eq, h.rules.sidechains_eq]

theorem Agrees.endPeriods (h : c.Agrees d) (height : UInt64) (proposals : List Bundle) :
    (c.endPeriods height proposals).1.Agrees (d.endPeriods height proposals).1 := by
  have hboundary : c.state.boundary c.params height proposals =
      d.state.boundary d.params height proposals := by
    rw [h.rules.boundary_eq, h.state_eq]
  have hnothing : c.NothingEnds height proposals ↔ d.NothingEnds height proposals := by
    unfold NothingEnds
    rw [hboundary, h.lastBoundary_eq]
  by_cases hends : d.NothingEnds height proposals
  · rw [Chain.endPeriods, Chain.endPeriods, if_pos hends, if_pos (hnothing.mpr hends)]
    exact h
  · rw [Chain.endPeriods, Chain.endPeriods, if_neg hends, if_neg (hnothing.not.mpr hends)]
    rw [hboundary]
    exact ⟨h.rules, rfl, rfl, h.tip_eq, rfl⟩

/-- The chain with what a block settles, before periods end. -/
def settleOn (c : Chain) (block : ConnectedBlock) : Chain :=
  { c with
    state := block.committed.getD c.state
    hash := (block.committed.map State.hash).getD c.hash
    tip := some block.height }

def follow (c : Chain) (block : ConnectedBlock) : Chain :=
  ((c.settleOn block).endPeriods block.height
    (Coinbase.proposals c.params.proposalTag block.outputs)).1

def followAll (c : Chain) (blocks : List ConnectedBlock) : Chain := blocks.foldl follow c

theorem Agrees.settleOn (h : c.Agrees d) (block : ConnectedBlock) :
    (c.settleOn block).Agrees (d.settleOn block) where
  rules := h.rules
  state_eq := congrArg block.committed.getD h.state_eq
  hash_eq := congrArg (block.committed.map State.hash).getD h.hash_eq
  tip_eq := rfl
  lastBoundary_eq := h.lastBoundary_eq

theorem Agrees.follow (h : c.Agrees d) (block : ConnectedBlock) :
    (c.follow block).Agrees (d.follow block) := by
  rw [Chain.follow, Chain.follow, h.rules.proposalTag_eq]
  exact (h.settleOn block).endPeriods _ _

theorem Agrees.followAll (h : c.Agrees d) (blocks : List ConnectedBlock) :
    (c.followAll blocks).Agrees (d.followAll blocks) := by
  induction blocks generalizing c d with
  | nil => exact h
  | cons block rest ih => exact ih (h.follow block)

@[simp] theorem params_follow (c : Chain) (block : ConnectedBlock) :
    (c.follow block).params = c.params :=
  params_endPeriods _

@[simp] theorem params_followAll (c : Chain) (blocks : List ConnectedBlock) :
    (c.followAll blocks).params = c.params := by
  induction blocks generalizing c with
  | nil => rfl
  | cons block rest ih => exact (ih (c.follow block)).trans (c.params_follow block)

theorem tip_followAll (c : Chain) (blocks : List ConnectedBlock) :
    (c.followAll blocks).tip = ((blocks.map (·.height)).getLast?).or c.tip := by
  induction blocks using List.reverseRecOn with
  | nil => rfl
  | append_singleton blocks block _ =>
    rw [followAll, List.foldl_append, List.map_append]
    simp [follow, settleOn]

end Chain

end BundleTracker
