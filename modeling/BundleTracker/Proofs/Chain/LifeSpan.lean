import Mathlib.Tactic
import BundleTracker.Proofs.Chain.History

/-!
# How long a chain tracks a bundle

A record is followed from the call that created it to the last one. Its window is shortened by every
block that settles, by the one that creates it too, and by nothing else. It ends with the period of
its sidechain, or with a block that settles when the window is over and the workscore is below the
threshold.
-/

namespace BundleTracker

namespace Chain

variable {c : Chain} {bundle : Bundle} {sidechain : Sidechain} {r : Record} {event : Event}
  {height : UInt64}

section Steps

variable {expected : Digest} {packages : List Package}

theorem Legal.judges_of_tracked (hlegal : c.Legal) (hcanonical : c.state.Canonical)
    (hs : c.params.sidechain? bundle.sidechain = some sidechain)
    (hr : c.state.find? bundle = some r) {age : Nat}
    (hage : r.blocksLeft.toNat = sidechain.period.toNat - age)
    (hevent : c.event? (.reconcile height expected packages) = some event) :
    ∃ source expired, event = .reconciled height expected source expired ∧
      sidechain.Judges bundle
        (((lastScore? bundle (source.updates packages)).map
          (clampScore sidechain.period)).getD r.workscore)
        (age + 1) (c.call (.reconcile height expected packages)).state expired := by
  obtain ⟨source, rfl, hstate⟩ := hlegal.event_reconcile hevent
  refine ⟨source, _, rfl, ?_⟩
  rw [hstate]
  exact State.judges_of_tracked hcanonical hs hr hage _

theorem Legal.judges_of_new (hlegal : c.Legal) (hcanonical : c.state.Canonical)
    (hs : c.params.sidechain? bundle.sidechain = some sidechain)
    (hnone : c.state.find? bundle = none)
    (hevent : c.event? (.reconcile height expected packages) = some event) :
    ∃ source expired, event = .reconciled height expected source expired ∧
      ∀ score, lastScore? bundle (source.updates packages) = some score →
        sidechain.Judges bundle (clampScore sidechain.period score) 1
          (c.call (.reconcile height expected packages)).state expired := by
  obtain ⟨source, rfl, hstate⟩ := hlegal.event_reconcile hevent
  refine ⟨source, _, rfl, fun score hlast => ?_⟩
  rw [hstate]
  exact State.judges_of_new hcanonical hs hnone hlast

theorem Legal.find?_boundary (hlegal : c.Legal)
    (hs : c.params.sidechain? bundle.sidechain = some sidechain) {proposals : List Bundle}
    (hevent : c.event? (.boundary height proposals) = some event) :
    ∃ cleared seeded, event = .periodBoundary height ⟨cleared, seeded⟩ ∧
      (c.call (.boundary height proposals)).state.find? bundle =
        if bundle.sidechain ∈ cleared then
          if bundle ∈ seeded then
            some ⟨bundle, min c.params.initialScore sidechain.period, sidechain.period⟩
          else none
        else c.state.find? bundle := by
  obtain ⟨rfl, hstate⟩ := hlegal.event_boundary hevent
  refine ⟨_, _, rfl, ?_⟩
  rw [hstate]
  exact State.find?_boundary hs c.state height proposals

end Steps

/-- The life span of a bundle in a run of blocks. The canonical state is made by the changes that
the calls announce, and every record has a tenure in them. The blocks left of a record are those of
the period of its sidechain that no block has taken that settled during the tenure, however often it
was scored. The next block that settles judges it by the score that the block gives it, or the one
it had: if the window is over below the threshold, it goes and is named once among the expired
bundles; otherwise it stays. A bundle that is not tracked starts a new record with a full window
when a block that settles names it. The end of periods drops a record only with its sidechain, and
starts one only there. Nothing else changes any record. -/
theorem record_lives_out_window (p : Params) {calls : List Call}
    (hcalls : ∀ x ∈ calls, x.OfBlock) (bundle : Bundle) :
    let c := (start p).run calls
    let history := (start p).history calls
    c.state = State.ofChanges p history ∧
    ((c.state.find? bundle).isSome → ∃ before created later,
      history = before ++ created :: later ∧ Tenure p bundle before created later) ∧
    (∀ before created later, history = before ++ created :: later →
      Tenure p bundle before created later →
      ∃ sidechain r, p.sidechain? bundle.sidechain = some sidechain ∧
        c.state.find? bundle = some r ∧
        r.blocksLeft.toNat = sidechain.period.toNat - settledBlocks (created :: later) ∧
        ∀ height expected packages event,
          c.event? (.reconcile height expected packages) = some event →
          ∃ source expired, event = .reconciled height expected source expired ∧
            sidechain.Judges bundle
              (((lastScore? bundle (source.updates packages)).map
                (clampScore sidechain.period)).getD r.workscore)
              (settledBlocks (created :: later) + 1)
              (c.call (.reconcile height expected packages)).state expired) ∧
    (∀ sidechain, p.sidechain? bundle.sidechain = some sidechain →
      (c.state.find? bundle = none → ∀ height expected packages event,
        c.event? (.reconcile height expected packages) = some event →
        ∃ source expired, event = .reconciled height expected source expired ∧
          ∀ score, lastScore? bundle (source.updates packages) = some score →
            sidechain.Judges bundle (clampScore sidechain.period score) 1
              (c.call (.reconcile height expected packages)).state expired) ∧
      ∀ height proposals event, c.event? (.boundary height proposals) = some event →
        ∃ cleared seeded, event = .periodBoundary height ⟨cleared, seeded⟩ ∧
          (c.call (.boundary height proposals)).state.find? bundle =
            if bundle.sidechain ∈ cleared then
              if bundle ∈ seeded then
                some ⟨bundle, min p.initialScore sidechain.period, sidechain.period⟩
              else none
            else c.state.find? bundle) ∧
    ∀ x, x.OfBlock → c.event? x = none → (c.call x).state = c.state := by
  intro c history
  obtain ⟨hlegal, hparams⟩ : c.Legal ∧ c.params = p := (Legal.start p).run calls
  have hstate : c.state = State.ofChanges p history := (Legal.start p).state_run hcalls
  have hcanonical : c.state.Canonical := by
    rw [hstate]
    exact State.canonical_ofChanges p history
  refine ⟨hstate, ?_, ?_, ?_, fun x hx hnone => hlegal.state_of_event?_eq_none hx hnone⟩
  · rw [hstate]
    exact State.exists_tenure
  · intro before created later hhistory htenure
    have htracked := htenure.tracked later List.prefix_rfl
    rw [← hhistory, ← hstate] at htracked
    rw [← hparams]
    obtain ⟨sidechain, hs⟩ := State.Legal.registered hlegal htracked
    obtain ⟨r, hr⟩ := Option.isSome_iff_exists.mp htracked
    have hage : r.blocksLeft.toNat =
        sidechain.period.toNat - settledBlocks (created :: later) := by
      refine htenure.toNat_blocksLeft (hparams ▸ hs) ?_
      rw [← hhistory, ← hstate]
      exact hr
    refine ⟨sidechain, r, hs, hr, hage, ?_⟩
    intro height expected packages event hevent
    exact hlegal.judges_of_tracked hcanonical hs hr hage hevent
  · rw [← hparams]
    intro sidechain hs
    refine ⟨?_, ?_⟩
    · intro hnone height expected packages event hevent
      exact hlegal.judges_of_new hcanonical hs hnone hevent
    · intro height proposals event hevent
      exact hlegal.find?_boundary hs hevent

/-- On a sidechain with periods of two blocks, a bundle with one vote has a block left after the
block that settles the vote and another without a commitment. It goes with the next block that
settles. -/
theorem record_with_one_vote_expires :
    let brief : Sidechain := ⟨4, "brief", 2, 2⟩
    let p : Params := { sidechains := SidechainTable.empty.insert brief (by decide) }
    let voted : Bundle := ⟨4, Block.zero 32⟩
    let vote : Package := ⟨5, [⟨voted, 1⟩]⟩
    let calls : List Call := [.reconcile 5 ((start p).predict vote).hash [vote], .skip 6]
    let c := (start p).run calls
    let last : Call := .reconcile 7 State.empty.hash []
    (∀ x ∈ calls, x.OfBlock) ∧ c.state.find? voted = some ⟨voted, 1, 1⟩ ∧
      c.event? last = some (.reconciled 7 State.empty.hash .noUpdate [voted]) ∧
      (c.call last).state.find? voted = none := by
  intro brief p voted vote calls c last
  have hcalls : ∀ x ∈ calls, x.OfBlock := by decide +kernel
  have hs : p.sidechain? 4 = some brief := by decide +kernel
  obtain ⟨hfind, hhistory, hevent⟩ : c.state.find? voted = some ⟨voted, 1, 1⟩ ∧
      (start p).history calls = [.selection vote.updates] ∧
      c.event? last = some (.reconciled 7 State.empty.hash .noUpdate [voted]) := by
    decide +kernel
  obtain ⟨-, htenure, hlife, -⟩ := record_lives_out_window p hcalls voted
  obtain ⟨before, created, later, hsplit, htenure⟩ := htenure (by rw [hfind]; rfl)
  obtain ⟨sidechain, r, hsidechain, hr, -, hjudged⟩ := hlife before created later hsplit htenure
  obtain rfl : brief = sidechain := Option.some.inj (hs.symm.trans hsidechain)
  obtain rfl : ⟨voted, 1, 1⟩ = r := Option.some.inj (hfind.symm.trans hr)
  have hsettled : settledBlocks (created :: later) = 1 := by
    rw [hhistory] at hsplit
    obtain ⟨rfl, hlast⟩ := List.append_eq_singleton_iff.mp hsplit.symm |>.resolve_right (by simp)
    rw [hlast]
    rfl
  obtain ⟨source, expired, hsource, hend⟩ := hjudged _ _ _ _ hevent
  obtain rfl : Source.noUpdate = source := by injection hsource
  rw [hsettled] at hend
  exact ⟨hcalls, hfind, hevent, hend.1⟩

end Chain

end BundleTracker
