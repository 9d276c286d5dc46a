import Mathlib.Tactic
import BundleTracker.Proofs.Node.Runs

/-!
# A package in time

Once there is a tip, a package for the next height that is taken in stays until the block
comes, unless as many packages as fit are handed in for that height after it. Its candidate
is then among those that are tried, so a block that commits to what was predicted from the
package settles.
-/

namespace BundleTracker

namespace Candidate

theorem selected_package {packages : List Package} {p : Package} {index : Nat}
    (h : packages[index]? = some p) : selected packages (.package index) = p.updates := by
  simp [selected, Source.indices, h]

end Candidate

namespace Node

variable {n : Node} {p q : Package} {tip height : UInt64} {commitment : Digest}
  {outputs : List Output}

def addAll (n : Node) (packages : List Package) : Node := n.run (packages.map .add)

@[simp] theorem addAll_cons (n : Node) (p : Package) (rest : List Package) :
    n.addAll (p :: rest) = (n.addPackage p).1.addAll rest := rfl

@[simp] theorem chain_addAll (n : Node) (packages : List Package) :
    (n.addAll packages).chain = n.chain := by
  induction packages generalizing n with
  | nil => rfl
  | cons p rest ih => rw [addAll_cons, ih, chain_addPackage]

section Waiting

theorem add_one_le_of_lt {a b : UInt64} (h : a < b) : a + 1 ≤ b := by
  have hb := b.toNat_lt
  rw [UInt64.lt_iff_toNat_lt] at h
  rw [UInt64.le_iff_toNat_le, UInt64.toNat_add, UInt64.toNat_one]
  omega

/-- A package at the height after the tip keeps its place when another one is handed in. -/
theorem waits_addPackage {behind : Nat} (hn : n.Sound) (htip : n.chain.tip = some tip)
    (hp : p.height = tip + 1) (h : n.buffer.Waits p behind)
    (hfits : q.height = p.height → behind + 1 < n.chain.params.maxPackagesPerHeight.toNat) :
    (n.addPackage q).1.buffer.Waits p (behind + if q.height = p.height then 1 else 0) := by
  rcases n.addPackage_cases q with ⟨admission, -, heq⟩ | ⟨hnone, heq⟩
  · rw [heq]
    exact h.mono (Nat.le_add_right _ _)
  · rw [heq]
    have hlt := lt_height_of_rejects? htip hnone
    have hle : p.height ≤ q.height := by
      rw [hp]
      exact add_one_le_of_lt hlt
    exact h.add hle (by rwa [hn.maxPerHeight_eq])

theorem mem_packagesAt_addAll {behind : Nat} (hn : n.Sound) (htip : n.chain.tip = some tip)
    (hp : p.height = tip + 1) (h : n.buffer.Waits p behind) (later : List Package)
    (hfew : behind + later.countP (fun q => q.height = p.height) <
      n.chain.params.maxPackagesPerHeight.toNat) :
    p ∈ (n.addAll later).buffer.packagesAt p.height := by
  induction later generalizing n behind with
  | nil => exact h.mem
  | cons q rest ih =>
    rw [List.countP_cons] at hfew
    have hwaits := waits_addPackage (q := q) hn htip hp h ?_
    · rw [addAll_cons]
      refine ih (hn.addPackage q) ?_ hwaits ?_
      · rwa [chain_addPackage]
      · rw [chain_addPackage]
        simp only [decide_eq_true_eq] at hfew
        omega
    · intro hq
      simp only [hq, decide_true, if_true] at hfew
      omega

theorem waits_of_addPackage
    (h : (n.addPackage p).2 = .buffered ∨ (n.addPackage p).2 = .replaced) :
    (n.addPackage p).1.buffer.Waits p 0 := by
  rcases n.addPackage_cases p with ⟨admission, hrejects, heq⟩ | ⟨-, heq⟩
  · rw [heq] at h
    rcases stale_or_tooFar_of_rejects? hrejects with rfl | rfl <;> simp at h
  · rw [heq] at h ⊢
    exact Buffer.waits_of_add h

theorem mem_of_addPackage_duplicate (h : (n.addPackage p).2 = .duplicate) :
    p ∈ (n.addPackage p).1.buffer.packagesAt p.height := by
  rcases n.addPackage_cases p with ⟨admission, hrejects, heq⟩ | ⟨-, heq⟩
  · rw [heq] at h
    rcases stale_or_tooFar_of_rejects? hrejects with rfl | rfl <;> cases h
  · rw [heq] at h ⊢
    obtain ⟨hmem, hsame⟩ := Buffer.mem_of_add_duplicate h
    rwa [hsame]

end Waiting

section Settling

/-- The candidate by a waiting package alone has the state that is predicted from it. -/
theorem exists_candidate_state_eq_predict (h : p ∈ n.buffer.packagesAt height) :
    ∃ source, n.Selects height source ∧
      (n.candidate height source).state = (n.chain.predict p).state := by
  obtain ⟨index, hlt, hget⟩ := List.mem_iff_getElem.mp h
  refine ⟨.package index, .package hlt, ?_⟩
  have hheld : (n.buffer.packagesAt height)[index]? = some p := by
    rw [List.getElem?_eq_getElem hlt, hget]
  have halone : [p][0]? = some p := rfl
  simp only [candidate, Chain.predict, Candidate.build, Candidate.selected_package hheld,
    Candidate.selected_package halone]

/-- How `m` follows from `n` by a connected block that settles on a selection: the state of its
candidate became canonical, under the hash in the block, and then the periods that end at the height
were ended. -/
structure ConnectedOn (n m : Node) (height : UInt64) (outputs : List Output)
    (outcome : BlockOutcome) (commitment : Digest) (source : Source) : Prop where
  ok : n.connectBlock height outputs = (m, .ok outcome)
  hash_candidate : (n.candidate height source).hash = commitment
  chain_eq : m.chain = ((n.chain.adopt (n.candidate height source)).endPeriods height
    (Coinbase.proposals n.chain.params.proposalTag outputs)).1
  tip_eq : m.chain.tip = some height
  commitment_eq : outcome.commitment = some commitment
  event_eq : outcome.events.head? = some (.reconciled height commitment source
    ((n.candidate height source).expired.map (·.bundle)))

namespace ConnectedOn

variable {m : Node} {outcome : BlockOutcome} {source : Source}

theorem committed?_eq (h : n.ConnectedOn m height outputs outcome commitment source) :
    n.committed? height outcome = some (n.candidate height source).state := by
  obtain ⟨rest, hevents⟩ := List.head?_eq_some_iff.mp h.event_eq
  rw [committed?, hevents]
  rfl

theorem eq_of_nothingEnds (h : n.ConnectedOn m height outputs outcome commitment source)
    (hnothing : (n.chain.adopt (n.candidate height source)).NothingEnds height
      (Coinbase.proposals n.chain.params.proposalTag outputs)) :
    m.chain.state = (n.candidate height source).state ∧ m.chain.hash = commitment := by
  rw [h.chain_eq, Chain.endPeriods, if_pos hnothing]
  exact ⟨rfl, h.hash_candidate⟩

end ConnectedOn

/-- A block settles if a selection of the waiting packages leads to what it commits to. -/
theorem exists_connectedOn (hlegal : n.chain.Legal)
    (hheight : n.chain.checkHeight height = .ok ())
    (hfound : Coinbase.findCommitment n.chain.params.commitmentTag outputs = .ok (some commitment))
    {source : Source} (hselects : n.Selects height source)
    (hhash : (n.candidate height source).hash = commitment) :
    ∃ m outcome first, n.ConnectedOn m height outputs outcome commitment first := by
  rcases connectBlock_of_commitment hlegal hheight hfound with
    ⟨first, hfirst, heq⟩ | ⟨hnone, -⟩
  · obtain ⟨-, rfl, -⟩ := hfirst
    exact ⟨_, _, first,
      { ok := heq
        hash_candidate := rfl
        chain_eq := rfl
        tip_eq := tip_finish _ _ _ _
        commitment_eq := rfl
        event_eq := rfl }⟩
  · exact absurd hhash (hnone source hselects)

/-- Once there is a tip, a package for the next height that is taken in, or waits there already,
goes through: the block that commits to what was predicted from it settles, whatever packages
come in between, if fewer of them than fit are for that height. -/
theorem connectBlock_settles_on_package (hn : n.Reachable) (htip : n.chain.tip = some tip)
    (hlast : tip < 0xffffffffffffffff) (hp : p.height = tip + 1) (later : List Package)
    (htaken : ((n.addPackage p).2 = .buffered ∨ (n.addPackage p).2 = .replaced) ∧
        later.countP (fun q => q.height = tip + 1) < n.chain.params.maxPackagesPerHeight.toNat ∨
      (n.addPackage p).2 = .duplicate ∧ later = [])
    (hcommits : Coinbase.findCommitment n.chain.params.commitmentTag outputs =
      .ok (some (n.predictCommitment p))) :
    let ready := (n.addPackage p).1.addAll later
    ∃ m outcome source,
      ready.ConnectedOn m (tip + 1) outputs outcome (n.predictCommitment p) source ∧
      ((ready.candidate (tip + 1) source).state = (n.chain.predict p).state ∨
        (ready.candidate (tip + 1) source).state ≠ (n.chain.predict p).state ∧
        (ready.candidate (tip + 1) source).state.hash = (n.chain.predict p).state.hash) := by
  intro ready
  have hwaits : p ∈ ready.buffer.packagesAt (tip + 1) := by
    rw [← hp] at htaken ⊢
    rcases htaken with ⟨htaken, hfew⟩ | ⟨hduplicate, rfl⟩
    · have hwaits := waits_of_addPackage htaken
      refine mem_packagesAt_addAll (hn.sound.addPackage p) ?_ hp hwaits later ?_
      · rwa [chain_addPackage]
      · rwa [chain_addPackage, Nat.zero_add]
    · exact mem_of_addPackage_duplicate hduplicate
  have hchain : ready.chain = n.chain := (chain_addAll _ later).trans (chain_addPackage n p)
  clear_value ready
  have hheight : ready.chain.checkHeight (tip + 1) = .ok () := by
    rw [hchain, Chain.checkHeight_eq_ok_iff]
    intro tip' htip'
    obtain rfl := Option.some.inj (htip.symm.trans htip')
    exact if_neg (UInt64.ne_of_lt hlast)
  obtain ⟨source, hselects, hstate⟩ := exists_candidate_state_eq_predict hwaits
  rw [hchain] at hstate
  have hhash : (ready.candidate (tip + 1) source).hash = n.predictCommitment p :=
    congrArg State.hash hstate
  have hlegal : ready.chain.Legal := by
    rw [hchain]
    exact hn.sound.legal
  have hfound : Coinbase.findCommitment ready.chain.params.commitmentTag outputs =
      .ok (some (n.predictCommitment p)) := by
    rwa [hchain]
  obtain ⟨m, outcome, first, hm⟩ := exists_connectedOn hlegal hheight hfound hselects hhash
  refine ⟨m, outcome, first, hm, ?_⟩
  by_cases hsame : (ready.candidate (tip + 1) first).state = (n.chain.predict p).state
  · exact Or.inl hsame
  · exact Or.inr ⟨hsame, hm.hash_candidate⟩

/-- A package for the first height after a block, with two more behind it. -/
theorem connectBlock_settles_after_junk :
    let n := (fresh {}).run [.connect 0 []]
    let package : Package := ⟨1, [⟨⟨0, Block.zero 32⟩, 7⟩]⟩
    let later : List Package := [⟨1, []⟩, ⟨2, []⟩]
    let outputs := Coinbase.dataOutputs n.chain.params.commitmentTag n.chain.params.proposalTag
      (some (n.predictCommitment package)) [⟨1, Block.zero 32⟩]
    let ready := (n.addPackage package).1.addAll later
    let outcome : BlockOutcome := ⟨some (n.predictCommitment package),
      [.reconciled 1 (n.predictCommitment package) (.package 0) []]⟩
    (n.addPackage package).2 = .buffered ∧
      later.countP (fun q => q.height = 0 + 1) < n.chain.params.maxPackagesPerHeight.toNat ∧
      ∃ m, ready.ConnectedOn m 1 outputs outcome (n.predictCommitment package) (.package 0) ∧
        (ready.candidate 1 (.package 0)).state = (n.chain.predict package).state ∧
        m.chain.state = (n.chain.predict package).state ∧
        m.chain.hash = n.predictCommitment package := by
  intro n package later outputs ready outcome
  have hn : n.Reachable := reachable_fresh.run _
  have htip : n.chain.tip = some 0 := by decide +kernel
  have htaken : (n.addPackage package).2 = .buffered := by decide +kernel
  have hfew : later.countP (fun q => q.height = 0 + 1) <
      n.chain.params.maxPackagesPerHeight.toNat := by decide +kernel
  have hcommits : Coinbase.findCommitment n.chain.params.commitmentTag outputs =
      .ok (some (n.predictCommitment package)) := by decide +kernel
  have houtcome : (ready.connectBlock 1 outputs).2 = .ok outcome := by decide +kernel
  have hpredicted : (ready.candidate 1 (.package 0)).state = (n.chain.predict package).state := by
    decide +kernel
  obtain ⟨m, outcome', source, hm, -⟩ := connectBlock_settles_on_package hn htip (by decide) rfl
    later (Or.inl ⟨Or.inl htaken, hfew⟩) hcommits
  have hm : ready.ConnectedOn m 1 outputs outcome' (n.predictCommitment package) source := hm
  rw [hm.ok] at houtcome
  obtain rfl := Except.ok.inj houtcome
  obtain rfl : Source.package 0 = source := by injection Option.some.inj hm.event_eq
  have hnothing : (ready.chain.adopt (ready.candidate 1 (.package 0))).NothingEnds 1
      (Coinbase.proposals ready.chain.params.proposalTag outputs) := by decide +kernel
  obtain ⟨hstate, hhash⟩ := hm.eq_of_nothingEnds hnothing
  exact ⟨htaken, hfew, m, hm, hpredicted, hstate.trans hpredicted, hhash⟩

end Settling

end Node

end BundleTracker
