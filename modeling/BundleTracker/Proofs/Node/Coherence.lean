import Mathlib.Tactic
import BundleTracker.Proofs.Chain.Coherence
import BundleTracker.Proofs.Node.Runs
import BundleTracker.Proofs.Package.Heights

/-!
# Nodes that fit together

A package waits under its own height and only above the last block, and the hash, the state and
the tip of the chain belong together. Whatever a node is asked, and whether it answers or
refuses, it is left so.
-/

namespace BundleTracker

namespace Node

variable {n : Node} {p : Params}

structure Coherent (n : Node) : Prop where
  chain : n.chain.Coherent
  maxHeights_eq : n.buffer.maxHeights = n.chain.params.maxBufferedHeights.toNat
  filed : n.buffer.Filed
  above : ∀ tip, n.chain.tip = some tip → ∀ height ∈ n.buffer.waiting, tip < height

namespace Coherent

section Steps

variable {height : UInt64}

theorem fresh (p : Params) : (fresh p).Coherent where
  chain := .start p
  maxHeights_eq := rfl
  filed := .empty rfl
  above _ htip := nomatch htip

theorem addPackage (h : n.Coherent) (package : Package) : (n.addPackage package).1.Coherent := by
  rcases n.addPackage_cases package with ⟨admission, -, heq⟩ | ⟨hnone, heq⟩
  · rw [heq]
    exact h
  · rw [heq]
    refine ⟨h.chain, ?_, h.filed.add package, ?_⟩
    · rw [Buffer.maxHeights_add]
      exact h.maxHeights_eq
    · intro tip htip height hheight
      rcases Buffer.mem_waiting_add hheight with rfl | hheight
      · exact lt_height_of_rejects? htip hnone
      · exact h.above tip htip height hheight

theorem publish (h : n.Coherent) (events : List Event) : (n.publish events).Coherent :=
  ⟨h.chain, h.maxHeights_eq, h.filed, h.above⟩

theorem stall (h : n.Coherent) (height : UInt64) (expected : Digest) :
    (n.stall height expected).Coherent where
  chain := h.chain.sameButStalls (n.sameButStalls_stall height expected)
  maxHeights_eq := h.maxHeights_eq
  filed := h.filed
  above := h.above

theorem above_pruneThrough (b : Buffer) (height : UInt64) :
    ∀ tip, some height = some tip → ∀ k ∈ (b.pruneThrough height).waiting, tip < k := by
  rintro tip htip k hk
  obtain rfl := Option.some.inj htip
  exact (Buffer.mem_waiting_pruneThrough hk).1

theorem adopt (h : n.Coherent) (height : UInt64) (source : Source) :
    (n.adopt (n.candidate height source)).Coherent where
  chain := .adopt n.chain height _ source
  maxHeights_eq := (n.buffer.maxHeights_pruneThrough height).trans h.maxHeights_eq
  filed := h.filed.pruneThrough height
  above := above_pruneThrough n.buffer height

theorem pass (h : n.Coherent) (height : UInt64) : (n.pass height).Coherent where
  chain := h.chain.pass height
  maxHeights_eq := (n.buffer.maxHeights_pruneThrough height).trans h.maxHeights_eq
  filed := h.filed.pruneThrough height
  above := above_pruneThrough n.buffer height

theorem finish (h : n.Coherent) (htip : n.chain.tip = some height) (outputs : List Output)
    (events : List Event) : (n.finish height outputs events).1.Coherent where
  chain := h.chain.endPeriods htip _
  maxHeights_eq := by
    rw [params_finish]
    exact h.maxHeights_eq
  filed := h.filed
  above := by
    rw [tip_finish]
    exact h.above

theorem reset (h : n.Coherent) : n.reset.Coherent where
  chain := .start n.chain.params
  maxHeights_eq := h.maxHeights_eq
  filed := .empty rfl
  above _ htip := nomatch htip

theorem call (h : n.Coherent) (hn : n.Sound) (c : Call) : (n.call c).Coherent := by
  cases c with
  | add package => exact h.addPackage package
  | reconcile height commitment =>
    have hstep := n.reconciles hn.legal height commitment
    unfold Node.call
    dsimp only
    generalize n.reconcile height commitment = result at hstep ⊢
    cases hstep with
    | refused _ => exact h
    | settled _ _ => exact (h.adopt height _).publish _
    | stalled _ _ => exact h.stall height commitment
  | connect height outputs =>
    have hstep := n.connects hn.legal height outputs
    unfold Node.call
    dsimp only
    generalize n.connectBlock height outputs = result at hstep ⊢
    cases hstep with
    | conflict _ => exact h
    | refused _ => exact h
    | settled _ _ _ => exact (h.adopt height _).finish rfl outputs _
    | stalled _ _ _ => exact h.stall height _
    | passed _ _ => exact (h.pass height).finish rfl outputs _
  | reset => exact h.reset
  | subscribe | next mailbox | drain mailbox | close mailbox =>
    exact ⟨h.chain, h.maxHeights_eq, h.filed, h.above⟩

end Steps

end Coherent

theorem Reachable.coherent (h : n.Reachable) : n.Coherent := by
  induction h with
  | start hstart =>
    obtain ⟨-, rfl⟩ := start_eq_ok_iff.mp hstart
    exact .fresh _
  | call c hreachable ih => exact ih.call hreachable.sound c

/-- After every call of every run the hash is that of the state, a record without blocks left has
reached the threshold of its sidechain, nothing is tracked before the first block, and every
package waits under its own height, which is above the tip. -/
theorem coherent_after_run (hn : start p = .ok n) (calls : List Call) :
    (n.run calls).chain.hash = (n.run calls).chain.state.hash ∧
    (∀ r ∈ (n.run calls).chain.state.toList, r.blocksLeft = 0 →
      ∃ sidechain, p.sidechain? r.bundle.sidechain = some sidechain ∧
        sidechain.threshold ≤ r.workscore) ∧
    ((n.run calls).chain.tip = none → (n.run calls).chain.state = .empty) ∧
    ∀ tip, (n.run calls).chain.tip = some tip →
      ∀ height, ∀ package ∈ (n.run calls).buffer.packagesAt height,
        package.height = height ∧ tip < package.height := by
  have hreachable : (n.run calls).Reachable := (Reachable.start hn).run calls
  have hcoherent := hreachable.coherent
  obtain ⟨-, rfl⟩ := start_eq_ok_iff.mp hn
  have hparams : ((Node.fresh p).run calls).chain.params = p := (Sound.fresh p).params_run calls
  refine ⟨hcoherent.chain.hash_eq, ?_, hcoherent.chain.empty_of_tip, ?_⟩
  · intro r hr
    obtain ⟨i, hi⟩ := State.mem_toList_iff.mp hr
    have hlives := hcoherent.chain.decided i r hi
    rw [hparams] at hlives
    exact Record.lives_iff.mp hlives
  · intro tip htip height package hpackage
    have hfiled := hcoherent.filed.height_eq hpackage
    refine ⟨hfiled, ?_⟩
    rw [hfiled]
    exact hcoherent.above tip htip height (Buffer.mem_waiting_of_mem_packagesAt hpackage)

/-- On a sidechain with periods of one block, a bundle that is voted for once has no blocks left
and stays. -/
theorem voted_record_outlives_window :
    let brief : Sidechain := ⟨4, "brief", 1, 1⟩
    let p : Params := { sidechains := SidechainTable.empty.insert brief (by decide) }
    let voted : Bundle := ⟨4, Block.zero 32⟩
    let vote : Package := ⟨5, [⟨voted, 1⟩]⟩
    let later : Package := ⟨6, []⟩
    let calls : List Call := [.add vote, .add later,
      .reconcile 5 ((fresh p).predictCommitment vote)]
    ((fresh p).run calls).chain.state.toList = [⟨voted, 1, 0⟩] ∧
      ((fresh p).run calls).chain.tip = some 5 ∧
      ((fresh p).run calls).buffer.packagesAt 6 = [later] ∧
      (∃ sidechain, p.sidechain? 4 = some sidechain ∧ sidechain.threshold ≤ 1) ∧
      5 < later.height := by
  intro brief p voted vote later calls
  have hstart : start p = .ok (fresh p) := start_of_check (by decide +kernel)
  obtain ⟨-, hdecided, -, habove⟩ := coherent_after_run hstart calls
  have hstate : ((fresh p).run calls).chain.state.toList = [⟨voted, 1, 0⟩] := by decide +kernel
  have htip : ((fresh p).run calls).chain.tip = some 5 := by decide +kernel
  have hwaits : ((fresh p).run calls).buffer.packagesAt 6 = [later] := by decide +kernel
  refine ⟨hstate, htip, hwaits, ?_, ?_⟩
  · exact hdecided ⟨voted, 1, 0⟩ (by rw [hstate]; exact List.mem_singleton_self _) rfl
  · exact (habove 5 htip 6 later (by rw [hwaits]; exact List.mem_singleton_self _)).2

end Node

end BundleTracker
