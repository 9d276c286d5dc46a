import Mathlib.Tactic
import BundleTracker.Proofs.Chain.Schedule
import BundleTracker.Proofs.Node.Agreement

/-!
# Nodes on schedule

A node that moves by connecting blocks and by resets only stays on schedule, wherever it starts
and however often it stalls, as long as no block is at height zero or at the greatest height. So
between the ends of two periods it forgets no bundle.
-/

namespace BundleTracker

def Event.expired : Event → List Bundle
  | .reconciled _ _ _ expired => expired
  | _ => []

theorem Chain.expired_endPeriods (c : Chain) (height : UInt64) (proposals : List Bundle) :
    ∀ event ∈ (c.endPeriods height proposals).2, event.expired = [] := by
  intro event h
  unfold endPeriods at h
  split at h
  · cases h
  · obtain rfl := Option.some.inj h
    rfl

namespace Node

variable {n : Node} {p : Params}

section Steps

variable {height : UInt64} {outputs : List Output} {i : UInt8} {sidechain : Sidechain}

theorem on_finish (hs : n.chain.params.sidechain? i = some sidechain) (hpos : 0 < height.toNat)
    (hmid : ¬ sidechain.period.toNat ∣ height.toNat) (events : List Event) :
    (n.finish height outputs events).1.chain.state.on i = n.chain.state.on i :=
  Chain.on_endPeriods hs hpos hmid

theorem mem_or_expired_eq_nil {events : List Event} {event : Event}
    (h : event ∈ (n.finish height outputs events).2) : event ∈ events ∨ event.expired = [] := by
  rcases List.mem_append.mp h with h | h
  · exact Or.inl h
  · exact Or.inr (Chain.expired_endPeriods _ _ _ event (Option.mem_toList.mp h))

theorem onSchedule_connectBlock (hn : n.Sound) (h : n.chain.OnSchedule)
    (hrange : ∀ b ∈ n.block? (.connect height outputs),
      0 < b.height ∧ b.height < 0xffffffffffffffff) :
    (n.connectBlock height outputs).1.chain.OnSchedule := by
  have hstep := n.connects hn.legal height outputs
  unfold block? at hrange
  dsimp only at hrange
  generalize n.connectBlock height outputs = result at hrange hstep ⊢
  cases hstep with
  | conflict _ => exact h
  | refused _ => exact h
  | settled _ hheight _ =>
    obtain ⟨hpos, hbelow⟩ := hrange _ rfl
    obtain ⟨before, hsucc, hphase⟩ := h.inPhase hheight hpos
    exact (hphase.adopt hsucc _ _).onSchedule (Chain.tip_endPeriods _) hbelow
  | stalled _ _ _ => exact h.sameButStalls (n.sameButStalls_stall height _)
  | passed _ hheight =>
    obtain ⟨hpos, hbelow⟩ := hrange _ rfl
    obtain ⟨before, hsucc, hphase⟩ := h.inPhase hheight hpos
    exact (hphase.pass hsucc).onSchedule (Chain.tip_endPeriods _) hbelow

theorem onSchedule_call (hn : n.Sound) (h : n.chain.OnSchedule) {c : Call}
    (hc : ∀ height commitment, c ≠ .reconcile height commitment)
    (hrange : ∀ b ∈ n.block? c, 0 < b.height ∧ b.height < 0xffffffffffffffff) :
    (n.call c).chain.OnSchedule := by
  cases c with
  | add package =>
    rw [call, chain_addPackage]
    exact h
  | reconcile height commitment => exact absurd rfl (hc height commitment)
  | connect height outputs => exact onSchedule_connectBlock hn h hrange
  | reset => exact .start _
  | _ => exact h

theorem keeps_bundles (hn : n.Sound) (h : n.chain.OnSchedule) {outcome : BlockOutcome}
    (hok : (n.connectBlock height outputs).2 = .ok outcome)
    (hs : n.chain.params.sidechain? i = some sidechain)
    (hmid : ¬ sidechain.period.toNat ∣ height.toNat) :
    bundles (n.chain.state.on i) <+:
        bundles ((n.connectBlock height outputs).1.chain.state.on i) ∧
      ∀ event ∈ outcome.events, ∀ b ∈ event.expired, b.sidechain ≠ i := by
  have hpos : 0 < height.toNat := by
    refine Nat.pos_of_ne_zero fun hzero => hmid ?_
    rw [hzero]
    exact Nat.dvd_zero _
  have hstep := n.connects hn.legal height outputs
  generalize n.connectBlock height outputs = result at hok hstep ⊢
  cases hstep with
  | conflict _ => cases hok
  | refused _ => cases hok
  | @settled commitment source _ hheight _ =>
    obtain rfl := Except.ok.inj hok
    obtain ⟨before, hsucc, hphase⟩ := h.inPhase hheight (UInt64.lt_iff_toNat_lt.mpr hpos)
    obtain ⟨hfollows, hexpired⟩ := hphase.keeps_bundles hsucc hs hmid
      (n.buffer.packagesAt height) source
    constructor
    · dsimp only
      rw [on_finish (n := n.adopt (n.candidate height source)) hs hpos hmid]
      exact hfollows
    · intro event hevent b hb
      rcases mem_or_expired_eq_nil hevent with hsettled | hended
      · obtain rfl := List.mem_singleton.mp hsettled
        obtain ⟨r, hr, rfl⟩ := List.mem_map.mp hb
        exact hexpired r hr
      · rw [hended] at hb
        cases hb
  | stalled _ _ _ => cases hok
  | passed _ _ =>
    obtain rfl := Except.ok.inj hok
    constructor
    · dsimp only
      rw [on_finish (n := n.pass height) hs hpos hmid]
      exact List.prefix_rfl
    · intro event hevent b hb
      rcases mem_or_expired_eq_nil hevent with hnone | hended
      · cases hnone
      · rw [hended] at hb
        cases hb

end Steps

section Runs

theorem onSchedule_run (hn : n.Sound) (h : n.chain.OnSchedule) (calls : List Call)
    (hcalls : ∀ height commitment, Call.reconcile height commitment ∉ calls)
    (hrange : ∀ b ∈ n.connected calls, 0 < b.height ∧ b.height < 0xffffffffffffffff) :
    (n.run calls).chain.OnSchedule := by
  induction calls generalizing n with
  | nil => exact h
  | cons c rest ih =>
    rw [connected] at hrange
    rw [run_cons]
    apply ih (hn.call c)
    · apply onSchedule_call hn h
      · rintro height commitment rfl
        exact hcalls height commitment List.mem_cons_self
      · exact fun b hb => hrange b (List.mem_append_left _ (Option.mem_toList.mpr hb))
    · exact fun height commitment hmem => hcalls height commitment (List.mem_cons_of_mem c hmem)
    · exact fun b hb => hrange b (List.mem_append_right _ hb)

/-- Nothing is dropped in the middle of a period. In a run of blocks and resets, with no block at
height zero or at the greatest height, every record has at least the blocks left that its
sidechain's period has after the last block. A block at a height that does not end the period
of a sidechain leaves the sidechain's bundles tracked in their order, with new ones only after
them, and none of them is reported as expired. -/
theorem nothing_dropped_within_period (hn : start p = .ok n) (calls : List Call)
    (hcalls : ∀ height commitment, Call.reconcile height commitment ∉ calls)
    (hrange : ∀ b ∈ n.connected calls, 0 < b.height ∧ b.height < 0xffffffffffffffff) :
    (∀ tip, (n.run calls).chain.tip = some tip →
      ∀ i sidechain, p.sidechain? i = some sidechain → ∀ r ∈ (n.run calls).chain.state.on i,
        sidechain.period.toNat - tip.toNat % sidechain.period.toNat ≤ r.blocksLeft.toNat) ∧
    ∀ height outputs outcome, ((n.run calls).connectBlock height outputs).2 = .ok outcome →
      ∀ i sidechain, p.sidechain? i = some sidechain → ¬ sidechain.period.toNat ∣ height.toNat →
        bundles ((n.run calls).chain.state.on i) <+:
            bundles (((n.run calls).connectBlock height outputs).1.chain.state.on i) ∧
          ∀ event ∈ outcome.events, ∀ b ∈ event.expired, b.sidechain ≠ i := by
  obtain ⟨-, rfl⟩ := start_eq_ok_iff.mp hn
  have hsound : (fresh p).Sound := .fresh p
  have hschedule := onSchedule_run hsound (.start p) calls hcalls hrange
  have hparams : ((fresh p).run calls).chain.params = p := hsound.params_run calls
  constructor
  · intro tip htip i sidechain hs r hr
    exact (hschedule.atTip tip htip).lasts (by rw [hparams]; exact hs) r hr
  · intro height outputs outcome hok i sidechain hs hmid
    exact keeps_bundles (hsound.run calls) hschedule hok (by rw [hparams]; exact hs) hmid

/-- A vote in the middle of a period keeps the proposal of its start, and adds another bundle. -/
theorem proposal_kept_after_vote :
    let p : Params := {}
    let proposed : Bundle := ⟨0, Block.zero 32⟩
    let voted : Bundle := ⟨0, sha256d []⟩
    let package : Package := ⟨301, [⟨voted, 150⟩]⟩
    let seeding : Call := .connect 300 (Coinbase.dataOutputs p.commitmentTag p.proposalTag none
      [proposed])
    let n := (fresh p).run [seeding, .add package]
    let voting := Coinbase.dataOutputs p.commitmentTag p.proposalTag
      (some (n.predictCommitment package)) []
    bundles (n.chain.state.on 0) = [proposed] ∧
      bundles ((n.connectBlock 301 voting).1.chain.state.on 0) = [proposed, voted] ∧
      bundles (n.chain.state.on 0) <+:
        bundles ((n.connectBlock 301 voting).1.chain.state.on 0) := by
  intro p proposed voted package seeding n voting
  have hstart : start p = .ok (fresh p) := start_of_check (by decide +kernel)
  have hcalls :
      ∀ height commitment, Call.reconcile height commitment ∉ [seeding, .add package] := by
    intro height commitment
    simp [seeding]
  have hrange : ∀ b ∈ (fresh p).connected [seeding, .add package],
      0 < b.height ∧ b.height < 0xffffffffffffffff := by
    decide +kernel
  have hs : p.sidechain? 0 = some ⟨0, "test", 300, 100⟩ := by decide +kernel
  obtain ⟨-, hkept⟩ := nothing_dropped_within_period hstart [seeding, .add package] hcalls hrange
  obtain ⟨hok, hafter⟩ : (n.connectBlock 301 voting).2.toOption.isSome = true ∧
      bundles ((n.connectBlock 301 voting).1.chain.state.on 0) = [proposed, voted] := by
    decide +kernel
  refine ⟨by decide +kernel, hafter, ?_⟩
  cases hconnect : (n.connectBlock 301 voting).2 with
  | ok outcome => exact (hkept 301 voting outcome hconnect 0 _ hs (by decide)).1
  | error e =>
    rw [hconnect] at hok
    cases hok

end Runs

end Node

end BundleTracker
