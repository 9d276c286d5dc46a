import Mathlib.Tactic
import BundleTracker.Proofs.Node.Runs

/-!
# Reconciling a block

At a height that is accepted, a block settles exactly if some selection of the waiting
packages leads to the state that it commits to, and then it settles on the first one.
A block that stalls has had every selection tried.
-/

namespace BundleTracker

namespace Node

variable {n m : Node} {height : UInt64} {commitment : Digest}

/-- How `m` follows from `n` by a block at `height` that settles on a selection. -/
structure SettledOn (n m : Node) (height : UInt64) (commitment : Digest) (source : Source) :
    Prop where
  first : n.IsFirst height commitment source
  state_eq : m.chain.state = (n.candidate height source).state
  hash_state : m.chain.state.hash = commitment
  hash_eq : m.chain.hash = commitment
  tip_eq : m.chain.tip = some height
  pruned : ∀ k ≤ height, m.buffer.packagesAt k = []
  kept : ∀ k, height < k → m.buffer.packagesAt k = n.buffer.packagesAt k

theorem exists_selections (n : Node) (height : UInt64) :
    ∃ all : List Source, all.Nodup ∧ (∀ source, source ∈ all ↔ n.Selects height source) ∧
      all.length = n.selections height :=
  ⟨_, Source.nodup_all _ _, fun _ => Source.mem_all_iff, Source.length_all _ _⟩

theorem IsFirst.settledOn {source : Source} (h : n.IsFirst height commitment source)
    (events : List Event) :
    SettledOn n ((n.adopt (n.candidate height source)).publish events) height commitment
      source where
  first := h
  state_eq := rfl
  hash_state := h.2.1
  hash_eq := h.2.1
  tip_eq := rfl
  pruned := by
    intro k hk
    show (n.buffer.pruneThrough height).packagesAt k = []
    rw [Buffer.packagesAt_pruneThrough, if_neg (UInt64.not_lt.mpr hk)]
  kept := by
    intro k hk
    show (n.buffer.pruneThrough height).packagesAt k = n.buffer.packagesAt k
    rw [Buffer.packagesAt_pruneThrough, if_pos hk]

theorem settledOn_of_reconcile {hash : Digest} (hlegal : n.chain.Legal)
    (h : n.reconcile height commitment = (m, .ok hash)) :
    hash = commitment ∧ ∃ source, SettledOn n m height commitment source := by
  have hstep := n.reconciles hlegal height commitment
  rw [h] at hstep
  cases hstep with
  | @settled source _ hfirst => exact ⟨hfirst.2.1, source, hfirst.settledOn _⟩

theorem noneMatches_of_reconcile {e : ChainError} (hlegal : n.chain.Legal)
    (hheight : n.chain.checkHeight height = .ok ())
    (h : n.reconcile height commitment = (m, .error e)) :
    n.NoneMatches height commitment ∧ n.chain.SameButStalls m.chain ∧ m.buffer = n.buffer ∧
      ∃ attempt, e = .stall ⟨height, commitment, n.selections height, attempt⟩ := by
  have hstep := n.reconciles hlegal height commitment
  rw [h] at hstep
  cases hstep with
  | refused herror =>
    rw [hheight] at herror
    cases herror
  | stalled _ hnone => exact ⟨hnone, n.sameButStalls_stall height commitment, rfl, _, rfl⟩

theorem reconcile_ok_iff (hlegal : n.chain.Legal)
    (hheight : n.chain.checkHeight height = .ok ()) :
    (∃ hash, (n.reconcile height commitment).2 = .ok hash) ↔
      ∃ source, n.Selects height source ∧ (n.candidate height source).hash = commitment := by
  cases h : n.reconcile height commitment with
  | mk m result =>
    cases result with
    | ok hash =>
      obtain ⟨-, source, hsettled⟩ := settledOn_of_reconcile hlegal h
      exact iff_of_true ⟨hash, rfl⟩ ⟨source, hsettled.first.1, hsettled.first.2.1⟩
    | error e =>
      obtain ⟨hnone, -⟩ := noneMatches_of_reconcile hlegal hheight h
      apply iff_of_false
      · rintro ⟨hash, heq⟩
        cases heq
      · rintro ⟨source, hselects, hhash⟩
        exact hnone source hselects hhash

/-- At an accepted height a reachable node reconciles a block exactly if a selection of the
packages that wait there leads to the state with the hash; it settles on the first such selection,
and otherwise reports a stall after all of them. -/
theorem reconcile_settles_on_first_or_stalls (hn : n.Reachable) (commitment : Digest)
    (hheight : n.chain.checkHeight height = .ok ()) :
    ((∃ hash, (n.reconcile height commitment).2 = .ok hash) ↔
      ∃ source, n.Selects height source ∧ (n.candidate height source).hash = commitment) ∧
    (∀ m hash, n.reconcile height commitment = (m, .ok hash) →
      hash = commitment ∧ ∃ source, SettledOn n m height commitment source) ∧
    (∀ m e, n.reconcile height commitment = (m, .error e) →
      (∃ attempt, e = .stall ⟨height, commitment, n.selections height, attempt⟩) ∧
        n.chain.SameButStalls m.chain ∧ m.buffer = n.buffer) ∧
    ∃ all : List Source, all.Nodup ∧ (∀ source, source ∈ all ↔ n.Selects height source) ∧
      all.length = n.selections height := by
  have hlegal := hn.sound.legal
  refine ⟨reconcile_ok_iff hlegal hheight, ?_, ?_, n.exists_selections height⟩
  · intro m hash h
    exact settledOn_of_reconcile hlegal h
  · intro m e h
    obtain ⟨-, hchain, hbuffer, hattempt⟩ := noneMatches_of_reconcile hlegal hheight h
    exact ⟨hattempt, hchain, hbuffer⟩

/-- A fresh node with one package settles on the state that the package leads to. -/
theorem reconcile_settles_after_one_package :
    let package : Package := ⟨5, [⟨⟨0, Block.zero 32⟩, 7⟩]⟩
    let n := (fresh {}).run [.add package]
    n.Reachable ∧ n.chain.checkHeight 5 = .ok () ∧
      ∃ m source, n.reconcile 5 (n.predictCommitment package) =
          (m, .ok (n.predictCommitment package)) ∧
        SettledOn n m 5 (n.predictCommitment package) source := by
  intro package n
  have hn : n.Reachable := reachable_fresh.run _
  have hheld : n.buffer.packagesAt 5 = [package] := by decide +kernel
  have hheight : n.chain.checkHeight 5 = .ok () := rfl
  have hselects : n.Selects 5 (.package 0) := by
    rw [Selects, hheld]
    exact .package Nat.zero_lt_one
  have hhash : (n.candidate 5 (.package 0)).hash = n.predictCommitment package := by
    rw [candidate, hheld]
    rfl
  obtain ⟨hsettles, hfirst, -⟩ :=
    reconcile_settles_on_first_or_stalls hn (n.predictCommitment package) hheight
  obtain ⟨hash, hok⟩ := hsettles.mpr ⟨.package 0, hselects, hhash⟩
  generalize n.reconcile 5 (n.predictCommitment package) = result at hok hfirst ⊢
  obtain ⟨m, answer⟩ := result
  obtain rfl : answer = .ok hash := hok
  obtain ⟨rfl, source, hsource⟩ := hfirst m hash rfl
  exact ⟨hn, hheight, m, source, rfl, hsource⟩

end Node

end BundleTracker
