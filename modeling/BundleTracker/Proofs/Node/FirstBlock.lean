import Mathlib.Tactic
import BundleTracker.Proofs.Node.Coherence
import BundleTracker.Proofs.Node.Delivery

/-!
# The first block

Before the first block there is no tip to measure heights from, so a package is refused only if
the buffer is crowded below its height. Peers can bring that about with packages for as many lower
heights as fit, and in no other way. Otherwise the package is taken in, whatever came before it,
and the first block can be the one that it leads to.
-/

namespace BundleTracker

def lowerHeights (packages : List Package) (height : UInt64) : Nat :=
  ((packages.map Package.height).toFinset.filter (· < height)).card

namespace Node

variable {n : Node} {p : Package} {params : Params} {height : UInt64} {outputs : List Output}
  {commitment : Digest} {seen : Finset UInt64}

section Peers

theorem addPackage_of_tip (htip : n.chain.tip = none) (p : Package) :
    n.addPackage p = ({ n with buffer := (n.buffer.add p).1 }, (n.buffer.add p).2) := by
  rcases n.addPackage_cases p with ⟨admission, hrejects, -⟩ | ⟨-, heq⟩
  · rw [rejects?, htip] at hrejects
    cases hrejects
  · exact heq

theorem addPackage_of_crowded (htip : n.chain.tip = none) (h : n.buffer.Crowded p.height) :
    n.addPackage p = (n, .tooFar) := by
  rw [addPackage_of_tip htip, Buffer.add_of_crowded h]

theorem keepsLowest_addAll (htip : n.chain.tip = none) (h : n.buffer.KeepsLowest seen)
    (packages : List Package) :
    (n.addAll packages).buffer.KeepsLowest (seen ∪ (packages.map Package.height).toFinset) := by
  induction packages generalizing n seen with
  | nil =>
    rw [List.map_nil, List.toFinset_nil, Finset.union_empty]
    exact h
  | cons p rest ih =>
    have hnext : (n.addPackage p).1.buffer.KeepsLowest (insert p.height seen) := by
      rw [addPackage_of_tip htip]
      exact h.add p
    have htip' : (n.addPackage p).1.chain.tip = none := by rwa [chain_addPackage]
    rw [addAll_cons, List.map_cons, List.toFinset_cons, Finset.union_insert, ← Finset.insert_union]
    exact ih htip' hnext

/-- Before the first block the buffer is crowded below a height exactly if peers have handed in
packages for as many lower heights as fit. -/
theorem crowded_addAll_iff (hn : start params = .ok n) (packages : List Package) :
    (n.addAll packages).buffer.Crowded height ↔
      params.maxBufferedHeights.toNat ≤ lowerHeights packages height := by
  have hcoherent : (n.addAll packages).Coherent := ((Reachable.start hn).run _).coherent
  obtain ⟨-, rfl⟩ := start_eq_ok_iff.mp hn
  have hlowest := keepsLowest_addAll (n := fresh params) rfl (.empty rfl) packages
  rw [Finset.empty_union] at hlowest
  rw [hlowest.crowded_iff, hcoherent.maxHeights_eq, chain_addAll]
  rfl

end Peers

section Connecting

theorem eq_noUpdate_of_selects {source : Source} (h : n.Selects height source)
    (hnone : n.buffer.packagesAt height = []) : source = .noUpdate := by
  rw [Selects, hnone] at h
  cases h with
  | noUpdate => rfl
  | package hlt => exact absurd hlt (Nat.not_lt_zero _)
  | @combination indices _ hlt htwo _ =>
    obtain ⟨i, hi⟩ := List.exists_mem_of_length_pos (Nat.zero_lt_two.trans_le htwo)
    exact absurd (hlt i hi) (Nat.not_lt_zero _)

theorem candidate_noUpdate_of_start (hchain : n.chain = .start params) (height : UInt64) :
    (n.candidate height .noUpdate).hash = State.empty.hash := by
  rw [candidate, hchain]
  rfl

theorem connectBlock_settles_of_start (hchain : n.chain = .start params)
    (hcommits : Coinbase.findCommitment params.commitmentTag outputs =
      .ok (some (n.predictCommitment p)))
    (h : p ∈ n.buffer.packagesAt height ∨ n.predictCommitment p = State.empty.hash) :
    ∃ m outcome, n.connectBlock height outputs = (m, .ok outcome) ∧ m.chain.tip = some height ∧
      outcome.commitment = some (n.predictCommitment p) := by
  have hselected : ∃ source, n.Selects height source ∧
      (n.candidate height source).hash = n.predictCommitment p := by
    rcases h with hwaits | hnothing
    · obtain ⟨source, hselects, hstate⟩ := exists_candidate_state_eq_predict hwaits
      exact ⟨source, hselects, congrArg State.hash hstate⟩
    · refine ⟨.noUpdate, .noUpdate, ?_⟩
      rw [hnothing]
      exact candidate_noUpdate_of_start hchain height
  obtain ⟨source, hselects, hhash⟩ := hselected
  have hlegal : n.chain.Legal := hchain ▸ .start params
  have hheight : n.chain.checkHeight height = .ok () := by
    rw [hchain]
    rfl
  have hfound : Coinbase.findCommitment n.chain.params.commitmentTag outputs =
      .ok (some (n.predictCommitment p)) := by
    rw [hchain]
    exact hcommits
  obtain ⟨m, outcome, first, hm⟩ := exists_connectedOn hlegal hheight hfound hselects hhash
  exact ⟨m, outcome, hm.ok, hm.tip_eq, hm.commitment_eq⟩

/-- The first block stalls if no package waits for it, unless it commits to the empty state. -/
theorem connectBlock_stalls_of_start (hchain : n.chain = .start params)
    (hcommits : Coinbase.findCommitment params.commitmentTag outputs = .ok (some commitment))
    (hnone : n.buffer.packagesAt height = []) (hne : commitment ≠ State.empty.hash) :
    ∃ stall, n.connectBlock height outputs =
      (n.stall height commitment, .error (.stall stall)) := by
  have hlegal : n.chain.Legal := hchain ▸ .start params
  have hheight : n.chain.checkHeight height = .ok () := by
    rw [hchain]
    rfl
  have hfound : Coinbase.findCommitment n.chain.params.commitmentTag outputs =
      .ok (some commitment) := by
    rw [hchain]
    exact hcommits
  rcases connectBlock_of_commitment hlegal hheight hfound with
    ⟨source, ⟨hselects, hhash, -⟩, -⟩ | ⟨-, heq⟩
  · rw [eq_noUpdate_of_selects hselects hnone, candidate_noUpdate_of_start hchain] at hhash
    exact absurd hhash.symm hne
  · exact ⟨_, heq⟩

/-- The first block can be the one that a package leads to, unless peers have handed in packages
for as many lower heights as fit. In that case the package is refused, and the block stalls if it
commits to anything but the empty state. -/
theorem first_block_settles_unless_crowded_out (hn : start params = .ok n) (junk : List Package)
    (p : Package)
    (hcommits : Coinbase.findCommitment params.commitmentTag outputs =
      .ok (some ((n.addAll junk).predictCommitment p))) :
    (lowerHeights junk p.height < params.maxBufferedHeights.toNat →
      p ∈ ((n.addAll junk).addPackage p).1.buffer.packagesAt p.height) ∧
    (lowerHeights junk p.height < params.maxBufferedHeights.toNat ∨
        (n.addAll junk).predictCommitment p = State.empty.hash →
      ∃ m outcome,
        ((n.addAll junk).addPackage p).1.connectBlock p.height outputs = (m, .ok outcome) ∧
        m.chain.tip = some p.height ∧
        outcome.commitment = some ((n.addAll junk).predictCommitment p)) ∧
    (params.maxBufferedHeights.toNat ≤ lowerHeights junk p.height →
      (n.addAll junk).addPackage p = (n.addAll junk, .tooFar) ∧
      ((n.addAll junk).predictCommitment p ≠ State.empty.hash →
        ∃ stall, (n.addAll junk).connectBlock p.height outputs =
          ((n.addAll junk).stall p.height ((n.addAll junk).predictCommitment p),
            .error (.stall stall)))) := by
  have hcrowded : (n.addAll junk).buffer.Crowded p.height ↔
      params.maxBufferedHeights.toNat ≤ lowerHeights junk p.height := crowded_addAll_iff hn junk
  have hchain : (n.addAll junk).chain = .start params := by
    obtain ⟨-, rfl⟩ := start_eq_ok_iff.mp hn
    exact chain_addAll _ junk
  generalize n.addAll junk = ready at *
  have htip : ready.chain.tip = none := by rw [hchain]; rfl
  have hwaits : lowerHeights junk p.height < params.maxBufferedHeights.toNat →
      p ∈ (ready.addPackage p).1.buffer.packagesAt p.height := by
    intro hfew
    rw [addPackage_of_tip htip]
    exact Buffer.mem_packagesAt_add (hcrowded.not.mpr (Nat.not_le.mpr hfew))
  refine ⟨hwaits, fun hfew => ?_, fun hmany => ?_⟩
  · have hpredict : (ready.addPackage p).1.predictCommitment p = ready.predictCommitment p := by
      rw [predictCommitment, chain_addPackage, predictCommitment]
    rw [← hpredict] at hfew hcommits ⊢
    refine connectBlock_settles_of_start ?_ hcommits (hfew.imp_left hwaits)
    rwa [chain_addPackage]
  · have hfull := hcrowded.mpr hmany
    have hnone := Buffer.packagesAt_of_not_mem hfull.not_mem
    refine ⟨addPackage_of_crowded htip hfull, fun hne => ?_⟩
    exact connectBlock_stalls_of_start hchain hcommits hnone hne

/-- With two places a package at the height 5 goes through in spite of junk below and above it. One
at the height 70, above all the junk, does not. -/
theorem first_block_past_junk :
    let params : Params := { maxBufferedHeights := 2 }
    let junk : List Package := [⟨50, []⟩, ⟨60, []⟩, ⟨3, []⟩]
    let near : Package := ⟨5, [⟨⟨0, Block.zero 32⟩, 7⟩]⟩
    let far : Package := ⟨70, [⟨⟨0, Block.zero 32⟩, 7⟩]⟩
    let n := (fresh params).addAll junk
    let outputs := Coinbase.dataOutputs params.commitmentTag params.proposalTag
      (some ((fresh params).predictCommitment near)) []
    start params = .ok (fresh params) ∧
      (∃ m outcome, (n.addPackage near).1.connectBlock 5 outputs = (m, .ok outcome) ∧
        m.chain.tip = some 5) ∧
      n.addPackage far = (n, .tooFar) ∧
      ∃ m stall, n.connectBlock 70 outputs = (m, .error (.stall stall)) := by
  intro params junk near far n outputs
  have hstart : start params = .ok (fresh params) := start_of_check (by decide +kernel)
  have hchain : n.chain = (fresh params).chain := chain_addAll _ junk
  have hcommits : Coinbase.findCommitment params.commitmentTag outputs =
      .ok (some ((fresh params).predictCommitment near)) := by decide +kernel
  have hne : (fresh params).predictCommitment near ≠ State.empty.hash := by decide +kernel
  have hnear : n.predictCommitment near = (fresh params).predictCommitment near := by
    rw [predictCommitment, hchain, predictCommitment]
  have hfar : n.predictCommitment far = (fresh params).predictCommitment near := by
    rw [predictCommitment, hchain, predictCommitment]
    rfl
  have hcommitsFar := hcommits
  rw [← hfar] at hne hcommitsFar
  rw [← hnear] at hcommits
  have hsettles := (first_block_settles_unless_crowded_out hstart junk near hcommits).2.1
  have hcrowded := (first_block_settles_unless_crowded_out hstart junk far hcommitsFar).2.2
  have hfew : lowerHeights junk near.height < params.maxBufferedHeights.toNat := by decide +kernel
  have hmany : params.maxBufferedHeights.toNat ≤ lowerHeights junk far.height := by decide +kernel
  obtain ⟨m, outcome, hok, htip, -⟩ := hsettles (Or.inl hfew)
  obtain ⟨hrefused, hstalls⟩ := hcrowded hmany
  obtain ⟨stall, hstall⟩ := hstalls hne
  exact ⟨hstart, ⟨m, outcome, hok, htip⟩, hrefused, _, stall, hstall⟩

/-- With a single place, taken by junk at the height 0, a package at the height 1 is refused, and
the block that it leads to stalls. -/
theorem first_block_locked_out :
    let params : Params := { maxBufferedHeights := 1 }
    let n := (fresh params).addAll [⟨0, []⟩]
    let p : Package := ⟨1, [⟨⟨0, Block.zero 32⟩, 7⟩]⟩
    let outputs := Coinbase.dataOutputs params.commitmentTag params.proposalTag
      (some (n.predictCommitment p)) []
    start params = .ok (fresh params) ∧
      Coinbase.findCommitment params.commitmentTag outputs = .ok (some (n.predictCommitment p)) ∧
      (n.addPackage p).2 = .tooFar ∧
      ¬ ∃ m outcome, (n.addPackage p).1.connectBlock 1 outputs = (m, .ok outcome) := by
  intro params n p outputs
  have hstart : start params = .ok (fresh params) := start_of_check (by decide +kernel)
  have hcommits : Coinbase.findCommitment params.commitmentTag outputs =
      .ok (some (n.predictCommitment p)) := by decide +kernel
  have hcrowded : n.buffer.Crowded 1 := (crowded_addAll_iff hstart _).mpr (by decide +kernel)
  have hrefused : n.addPackage p = (n, .tooFar) := addPackage_of_crowded rfl hcrowded
  have hnone : n.buffer.packagesAt 1 = [] := Buffer.packagesAt_of_not_mem hcrowded.not_mem
  have hne : n.predictCommitment p ≠ State.empty.hash := by decide +kernel
  obtain ⟨stall, hstall⟩ := connectBlock_stalls_of_start rfl hcommits hnone hne
  refine ⟨hstart, hcommits, by rw [hrefused], ?_⟩
  rintro ⟨m, outcome, hok⟩
  rw [hrefused] at hok
  cases hstall.symm.trans hok

end Connecting

end Node

end BundleTracker
