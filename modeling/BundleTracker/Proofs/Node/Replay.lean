import Mathlib.Tactic
import BundleTracker.Trace
import BundleTracker.Proofs.Node.Agreement
import BundleTracker.Proofs.Node.FirstBlock
import BundleTracker.Proofs.Node.Window
import BundleTracker.Proofs.Script.Coinbase

/-!
# Replaying mined blocks

A block that is mined at the height after the tip goes through: the package that it was predicted
from is taken in and waits there, whatever peers have handed in before. So packages of peers cannot
stop a replay. They can change what a block settles on only if two states collide, because the
block commits to the same hash with and without them.
-/

namespace BundleTracker

namespace TraceStep

def mined? : TraceStep → Option UInt64
  | .mine p _ => some p.height
  | _ => none

def isPackage : TraceStep → Bool
  | .package _ => true
  | _ => false

def isBlock : TraceStep → Bool
  | .block _ _ _ => true
  | _ => false

end TraceStep

namespace Node

variable {n m : Node} {p : Package} {params : Params} {tip : UInt64}

def minedOutputs (n : Node) (p : Package) (bundles : List Bundle) : List Output :=
  Coinbase.dataOutputs n.chain.params.commitmentTag n.chain.params.proposalTag
    (some (n.predictCommitment p)) bundles

/-- The block that a step connects, if it goes through. -/
def stepBlock? (n : Node) : TraceStep → Option ConnectedBlock
  | .package _ => none
  | .block height commitment bundles => n.block? (.connect height (Coinbase.dataOutputs
      n.chain.params.commitmentTag n.chain.params.proposalTag commitment bundles))
  | .mine p bundles => (n.addPackage p).1.block? (.connect p.height (n.minedOutputs p bundles))

/-- How `m` follows from `n` by a block that is mined from a package and settles on the state
`s`. -/
structure Mines (n m : Node) (p : Package) (bundles : List Bundle) (s : State) : Prop where
  follow_eq : n.follow (.mine p bundles) = (m, none)
  block_eq : n.stepBlock? (.mine p bundles) = some ⟨p.height, n.minedOutputs p bundles, some s⟩
  hash_eq : s.hash = n.predictCommitment p
  tip_eq : m.chain.tip = some p.height
  reachable : m.Reachable
  agrees : (n.chain.follow ⟨p.height, n.minedOutputs p bundles, some s⟩).Agrees m.chain

section Mining

/-- A block that is mined goes through if its height is accepted and the package waits. -/
theorem exists_mines (hn : n.Reachable) (hheight : n.chain.checkHeight p.height = .ok ())
    (hwaits : p ∈ (n.addPackage p).1.buffer.packagesAt p.height) (bundles : List Bundle) :
    ∃ m s, n.Mines m p bundles s := by
  have hready : (n.addPackage p).1.Reachable := hn.call (.add p)
  have hchain : (n.addPackage p).1.chain = n.chain := chain_addPackage n p
  have hfound : Coinbase.findCommitment (n.addPackage p).1.chain.params.commitmentTag
      (n.minedOutputs p bundles) = .ok (some (n.predictCommitment p)) := by
    rw [hchain]
    exact Coinbase.findCommitment_dataOutputs _ bundles
  obtain ⟨source, hselects, hstate⟩ := exists_candidate_state_eq_predict hwaits
  rw [hchain] at hstate
  have hhash : ((n.addPackage p).1.candidate p.height source).hash = n.predictCommitment p :=
    congrArg State.hash hstate
  obtain ⟨m, outcome, first, hm⟩ :=
    exists_connectedOn hready.sound.legal (by rwa [hchain]) hfound hselects hhash
  have hcall : (n.addPackage p).1.call (.connect p.height (n.minedOutputs p bundles)) = m := by
    rw [call, hm.ok]
  have hfollows := follows_connectBlock hready.sound hm.ok
  rw [hm.committed?_eq, hchain] at hfollows
  refine ⟨m, ((n.addPackage p).1.candidate p.height first).state, ?_, ?_, hm.hash_candidate,
    hm.tip_eq, hcall ▸ hready.call _, hfollows⟩
  · have hok := hm.ok
    rw [minedOutputs] at hok
    simp only [follow, mine, connectData, hchain, hok]
  · simp only [stepBlock?, block?, hm.ok, hm.committed?_eq]

/-- The package for the height after the tip is taken in, whatever waits above it. -/
theorem mem_packagesAt_addPackage_of_next (hn : n.Reachable) (htip : n.chain.tip = some tip)
    (hnext : p.height.toNat = tip.toNat + 1) :
    p ∈ (n.addPackage p).1.buffer.packagesAt p.height := by
  have hpos : 0 < n.chain.params.maxBufferedHeights.toNat :=
    UInt64.lt_iff_toNat_lt.mp (UInt64.pos_iff_ne_zero.mpr hn.valid.maxBufferedHeights_ne)
  have hstep := addsAbove htip p
  generalize n.addPackage p = result at hstep ⊢
  cases hstep with
  | stale hle =>
    have hle := UInt64.le_iff_toNat_le.mp hle
    omega
  | tooFar _ hfar => omega
  | within hlt hnear =>
    have habove : ∀ k ∈ n.buffer.waiting, tip.toNat < k.toNat :=
      fun k hk => UInt64.lt_iff_toNat_lt.mp (hn.coherent.above tip htip k hk)
    rw [← hn.coherent.maxHeights_eq] at hnear
    exact Buffer.mem_packagesAt_add
      (Buffer.not_crowded_of_within habove (UInt64.lt_iff_toNat_lt.mp hlt) hnear)

theorem exists_mines_of_next (hn : n.Reachable) (htip : n.chain.tip = some tip)
    (hnext : p.height.toNat = tip.toNat + 1) (bundles : List Bundle) :
    ∃ m s, n.Mines m p bundles s := by
  refine exists_mines hn ?_ (mem_packagesAt_addPackage_of_next hn htip hnext) bundles
  rw [Chain.checkHeight_eq_ok_iff]
  intro tip' htip'
  obtain rfl := Option.some.inj (htip.symm.trans htip')
  have hlt := p.height.toNat_lt
  rw [← UInt64.toNat_inj, toNat_nextHeight]
  omega

theorem exists_mines_of_start (hn : start params = .ok n) (p : Package) (bundles : List Bundle) :
    ∃ m s, n.Mines m p bundles s := by
  have hreachable := Reachable.start hn
  obtain ⟨hvalid, hfresh⟩ := start_eq_ok_iff.mp hn
  have htip : n.chain.tip = none := by rw [hfresh]; rfl
  refine exists_mines hreachable ?_ ?_ bundles
  · rw [Chain.checkHeight_eq_ok_iff, htip]
    simp
  · have hpos : 0 < params.maxBufferedHeights.toNat :=
      UInt64.lt_iff_toNat_lt.mp (UInt64.pos_iff_ne_zero.mpr hvalid.maxBufferedHeights_ne)
    have hroom : ¬ (n.addAll []).buffer.Crowded p.height := by
      rw [crowded_addAll_iff hn, Nat.not_le]
      exact hpos
    rw [addPackage_of_tip htip]
    exact Buffer.mem_packagesAt_add hroom

end Mining

end Node

namespace Trace

open Node (Mines)

variable {n m : Node} {params : Params} {tip : UInt64} {steps : List TraceStep}

/-- The blocks that a replay connects, in their order. -/
def blocks (n : Node) : List TraceStep → List ConnectedBlock
  | [] => []
  | step :: rest =>
    match n.follow step with
    | (m, none) => (n.stepBlock? step).toList ++ blocks m rest
    | (_, some _) => []

def Consecutive (heights : List UInt64) : Prop :=
  heights.IsChain fun height next => next.toNat = height.toNat + 1

section Steps

variable {p : Package} {bundles : List Bundle} {s : State}

theorem replayFrom_mine (h : n.Mines m p bundles s) (index : Nat) (rest : List TraceStep) :
    replayFrom index n (.mine p bundles :: rest) = replayFrom (index + 1) m rest := by
  rw [replayFrom, h.follow_eq]

theorem blocks_mine (h : n.Mines m p bundles s) (rest : List TraceStep) :
    blocks n (.mine p bundles :: rest) =
      ⟨p.height, n.minedOutputs p bundles, some s⟩ :: blocks m rest := by
  rw [blocks, h.follow_eq, h.block_eq]
  rfl

end Steps

section Runs

variable {bundles : List Bundle} {first : Package}

theorem replayFrom_succeeds (hn : n.Reachable) (htip : n.chain.tip = some tip)
    (hsteps : ∀ step ∈ steps, step.isBlock = false)
    (hheights : Consecutive (tip :: steps.filterMap TraceStep.mined?)) (index : Nat) :
    (replayFrom index n steps).2 = none ∧
      (replayFrom index n steps).1.chain.tip =
        (tip :: steps.filterMap TraceStep.mined?).getLast? := by
  induction steps generalizing n tip index with
  | nil => exact ⟨rfl, htip⟩
  | cons step rest ih =>
    obtain ⟨hstep, hrest⟩ := List.forall_mem_cons.mp hsteps
    cases step with
    | package p =>
      have htip' : (n.addPackage p).1.chain.tip = some tip := by rwa [Node.chain_addPackage]
      exact ih (hn.call (.add p)) htip' hrest hheights (index + 1)
    | block height commitment bundles => cases hstep
    | mine p bundles =>
      obtain ⟨hnext, hheights⟩ := List.isChain_cons_cons.mp hheights
      obtain ⟨m, s, hm⟩ := Node.exists_mines_of_next hn htip hnext bundles
      rw [replayFrom_mine hm]
      exact ih hm.reachable hm.tip_eq hrest hheights (index + 1)

/-- Without the packages of peers a replay leads to the same, or a block settled on another state
with the same hash. -/
theorem agrees_or_collides (hn : n.Reachable) (hm : m.Reachable)
    (hagree : n.chain.Agrees m.chain) (htip : n.chain.tip = some tip)
    (hsteps : ∀ step ∈ steps, step.isBlock = false)
    (hheights : Consecutive (tip :: steps.filterMap TraceStep.mined?)) (index other : Nat) :
    (replayFrom index n steps).1.chain.Agrees
        (replayFrom other m (steps.filter fun step => !step.isPackage)).1.chain ∨
      ∃ (i : Nat) (a b : ConnectedBlock), (blocks n steps)[i]? = some a ∧
        (blocks m (steps.filter fun step => !step.isPackage))[i]? = some b ∧ a.Collides b := by
  induction steps generalizing n m tip index other with
  | nil => exact Or.inl hagree
  | cons step rest ih =>
    obtain ⟨hstep, hrest⟩ := List.forall_mem_cons.mp hsteps
    cases step with
    | package p =>
      have hagree' : (n.addPackage p).1.chain.Agrees m.chain := by rwa [Node.chain_addPackage]
      have htip' : (n.addPackage p).1.chain.tip = some tip := by rwa [Node.chain_addPackage]
      exact ih (hn.call (.add p)) hm hagree' htip' hrest hheights (index + 1) other
    | block height commitment bundles => cases hstep
    | mine p bundles =>
      obtain ⟨hnext, hheights⟩ := List.isChain_cons_cons.mp hheights
      obtain ⟨n', s, hn'⟩ := Node.exists_mines_of_next hn htip hnext bundles
      obtain ⟨m', t, hm'⟩ :=
        Node.exists_mines_of_next hm (hagree.tip_eq.symm.trans htip) hnext bundles
      have hpredict : n.predictCommitment p = m.predictCommitment p := hagree.predict_hash p
      have houtputs : m.minedOutputs p bundles = n.minedOutputs p bundles := by
        rw [Node.minedOutputs, Node.minedOutputs, hpredict, hagree.rules.commitmentTag_eq,
          hagree.rules.proposalTag_eq]
      have hquiet : (TraceStep.mine p bundles :: rest).filter (fun step => !step.isPackage) =
          .mine p bundles :: rest.filter fun step => !step.isPackage := rfl
      rw [hquiet, replayFrom_mine hn', replayFrom_mine hm', blocks_mine hn', blocks_mine hm']
      by_cases hsame : s = t
      · have hagree' : n'.chain.Agrees m'.chain := by
          have hother := hm'.agrees
          rw [houtputs, ← hsame] at hother
          exact hn'.agrees.symm.trans ((hagree.follow _).trans hother)
        rcases ih hn'.reachable hm'.reachable hagree' hn'.tip_eq hrest hheights (index + 1)
          (other + 1) with hfinal | ⟨i, a, b, ha, hb, hab⟩
        · exact Or.inl hfinal
        · exact Or.inr ⟨i + 1, a, b, ha, hb, hab⟩
      · have hhash : s.hash = t.hash := by rw [hn'.hash_eq, hm'.hash_eq, hpredict]
        exact Or.inr ⟨0, _, _, rfl, rfl, s, t, rfl, rfl, hsame, hhash⟩

/-- Packages of peers cannot disturb a replay of mined blocks. With blocks at consecutive heights,
the first of them at the start, no step fails and the tip is the last height; and the replay leads
to the same state and hash as without any packages, unless some block settled on two different
states with one hash. -/
theorem packages_cannot_disturb_replay (hn : Node.start params = .ok n) (first : Package)
    (bundles : List Bundle) (rest : List TraceStep)
    (hsteps : ∀ step ∈ rest, step.isBlock = false)
    (hheights : Consecutive (first.height :: rest.filterMap TraceStep.mined?)) :
    let steps := TraceStep.mine first bundles :: rest
    let quiet := steps.filter fun step => !step.isPackage
    (replay n steps).2 = none ∧
      (replay n steps).1.chain.tip = (steps.filterMap TraceStep.mined?).getLast? ∧
      ((replay n steps).1.chain.state = (replay n quiet).1.chain.state ∧
          (replay n steps).1.chain.hash = (replay n quiet).1.chain.hash ∨
        ∃ (i : Nat) (a b : ConnectedBlock), (blocks n steps)[i]? = some a ∧
          (blocks n quiet)[i]? = some b ∧ a.Collides b) := by
  intro steps quiet
  obtain ⟨m, s, hm⟩ := Node.exists_mines_of_start hn first bundles
  have hsteps' : steps = .mine first bundles :: rest := rfl
  have hquiet : quiet = .mine first bundles :: rest.filter fun step => !step.isPackage := rfl
  rw [hquiet, hsteps', replay, replay, replayFrom_mine hm, replayFrom_mine hm, blocks_mine hm,
    blocks_mine hm]
  obtain ⟨hok, htip⟩ := replayFrom_succeeds hm.reachable hm.tip_eq hsteps hheights 1
  refine ⟨hok, htip, ?_⟩
  rcases agrees_or_collides hm.reachable hm.reachable (.refl _) hm.tip_eq hsteps hheights 1 1 with
    hagree | ⟨i, a, b, ha, hb, hab⟩
  · exact Or.inl ⟨hagree.state_eq, hagree.hash_eq⟩
  · exact Or.inr ⟨i + 1, a, b, ha, hb, hab⟩

/-- With one place for each height, the package of a peer has to give way to the one that the second
block is mined from. -/
theorem packages_cannot_disturb_two_blocks :
    let params : Params := { maxPackagesPerHeight := 1 }
    let first : Package := ⟨5, []⟩
    let junk : Package := ⟨6, [⟨⟨0, Block.zero 32⟩, 9⟩]⟩
    let second : Package := ⟨6, [⟨⟨0, Block.zero 32⟩, 7⟩]⟩
    let steps : List TraceStep := [.mine first [⟨0, Block.zero 32⟩], .package junk, .mine second []]
    let quiet : List TraceStep := [.mine first [⟨0, Block.zero 32⟩], .mine second []]
    Node.start params = .ok (Node.fresh params) ∧ (replay (Node.fresh params) steps).2 = none ∧
      (replay (Node.fresh params) steps).1.chain.tip = some 6 ∧
      (replay (Node.fresh params) steps).1.chain.state =
        (replay (Node.fresh params) quiet).1.chain.state ∧
      (replay (Node.fresh params) steps).1.chain.hash =
        (replay (Node.fresh params) quiet).1.chain.hash := by
  intro params first junk second steps quiet
  have hstart : Node.start params = .ok (Node.fresh params) :=
    Node.start_of_check (by decide +kernel)
  have hsteps : ∀ step ∈ [TraceStep.package junk, .mine second []], step.isBlock = false := by
    decide
  have hheights : Consecutive (first.height ::
      [TraceStep.package junk, .mine second []].filterMap TraceStep.mined?) :=
    List.isChain_pair.mpr (by decide)
  have hsame : blocks (Node.fresh params) steps = blocks (Node.fresh params) quiet := by
    decide +kernel
  obtain ⟨hok, htip, hstate | ⟨i, a, b, ha, hb, hab⟩⟩ :=
    packages_cannot_disturb_replay hstart first [⟨0, Block.zero 32⟩] _ hsteps hheights
  · exact ⟨hstart, hok, htip, hstate⟩
  · have hquiet : (blocks (Node.fresh params) steps)[i]? = some b := hsame ▸ hb
    exact absurd (Option.some.inj (ha.symm.trans hquiet)) hab.ne

end Runs

end Trace

end BundleTracker
