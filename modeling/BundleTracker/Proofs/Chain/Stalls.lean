import Mathlib.Tactic
import BundleTracker.Proofs.Chain.Runs

/-!
# Counting stalls

A chain drops the counts up to the height that it commits and keeps all others. From then on only
greater heights are accepted, or the greatest height again, whose count a commit keeps. So a count
that is dropped is not asked for again before a reset, and every stall is numbered by the stalls of
its height since the start or the last reset.
-/

namespace BundleTracker

namespace Chain

variable {c d : Chain} {height : UInt64} {earlier : List Stall}

def stall? (c : Chain) : Call → Option Stall
  | .reconcile height expected packages =>
    match (c.reconcile height expected packages).2 with
    | .error (.stall stall) => some stall
    | _ => none
  | _ => none

/-- The stalls since the last reset, of which there are some `earlier` ones, after one more call. -/
def reported (c : Chain) (earlier : List Stall) : Call → List Stall
  | .reset => []
  | x => earlier ++ (c.stall? x).toList

/-- The stalls that some calls report since the last reset, behind the `earlier` ones. -/
def stallsSince (c : Chain) (earlier : List Stall) : List Call → List Stall
  | [] => earlier
  | x :: rest => (c.call x).stallsSince (c.reported earlier x) rest

/-- Whether a height can still be accepted, now or later on, before a reset. -/
def Open (c : Chain) (height : UInt64) : Prop := ∀ tip, c.tip = some tip → nextHeight tip ≤ height

/-- The counts of the heights that are open are those of the `earlier` stalls. -/
def Counts (c : Chain) (earlier : List Stall) : Prop :=
  ∀ height, c.Open height → c.stalls.getD height 0 = earlier.countP (·.height = height)

section Steps

theorem le_nextHeight (height : UInt64) : height ≤ nextHeight height := by
  have hlt := height.toNat_lt
  rw [UInt64.le_iff_toNat_le, toNat_nextHeight]
  omega

theorem open_of_checkHeight (hheight : c.checkHeight height = .ok ()) (htip : d.tip = some height)
    {later : UInt64} (hlater : d.Open later) : c.Open later := by
  intro tip hc
  rw [checkHeight_eq_ok_iff.mp hheight tip hc]
  exact UInt64.le_trans (le_nextHeight height) (hlater height htip)

theorem stalls_endPeriods (proposals : List Bundle) :
    (c.endPeriods height proposals).1.stalls = c.stalls := by
  unfold endPeriods
  split <;> rfl

namespace Counts

theorem start (p : Params) : (Chain.start p).Counts [] := by
  intro height _
  rfl

theorem adopt (h : c.Counts earlier) {candidate : Candidate}
    (hheight : c.checkHeight candidate.height = .ok ()) : (c.adopt candidate).Counts earlier := by
  intro later hlater
  have hkept : nextHeight candidate.height ≤ later := hlater candidate.height rfl
  rw [← h later (open_of_checkHeight hheight rfl hlater), Chain.adopt]
  dsimp only
  rw [Std.ExtTreeMap.getD_eq_getD_getElem?, Std.ExtTreeMap.getD_eq_getD_getElem?,
    Std.ExtTreeMap.getElem?_filter']
  cases c.stalls[later]? with
  | none => rfl
  | some count => simp [hkept, Option.filter]

theorem pass (h : c.Counts earlier) (hheight : c.checkHeight height = .ok ()) :
    ({ c with tip := some height } : Chain).Counts earlier := by
  intro later hlater
  exact h later (open_of_checkHeight hheight rfl hlater)

theorem endPeriods (h : c.Counts earlier) (height : UInt64) (proposals : List Bundle) :
    (c.endPeriods height proposals).1.Counts earlier := by
  intro later hlater
  rw [stalls_endPeriods]
  refine h later fun tip htip => hlater tip ?_
  rw [tip_endPeriods, htip]

theorem recordStall (h : c.Counts earlier) (height : UInt64) (expected : Digest) (tried : Nat) :
    (c.recordStall height expected tried).1.Counts
      (earlier ++ [(c.recordStall height expected tried).2]) := by
  intro later hlater
  have hcount := h later hlater
  rw [List.countP_append, ← hcount, Chain.recordStall]
  dsimp only
  rw [Std.ExtTreeMap.getD_insert]
  by_cases hsame : height = later
  · simp [hsame]
  · simp [hsame]

/-- Every call but the recording of a stall by itself keeps count of the stalls it reports. -/
theorem call (h : c.Counts earlier) (hlegal : c.Legal) {x : Call}
    (hx : ∀ height expected tried, x ≠ .recordStall height expected tried) :
    (c.call x).Counts (c.reported earlier x) := by
  cases x with
  | reconcile height expected packages =>
    have hstep := hlegal.reconciles height expected packages
    unfold reported stall? Chain.call
    dsimp only
    generalize c.reconcile height expected packages = result at hstep ⊢
    cases hstep with
    | refused hheight =>
      obtain ⟨next, -, -, rfl⟩ := checkHeight_eq_error hheight
      simpa using h
    | settled hheight _ => simpa using h.adopt hheight
    | stalled _ _ _ => exact h.recordStall height expected _
  | commit candidate =>
    have hstep := c.commits candidate
    unfold reported stall? Chain.call
    dsimp only
    rw [Option.toList_none, List.append_nil]
    generalize c.commit candidate = result at hstep ⊢
    cases hstep with
    | refused _ => exact h
    | illegal _ _ => exact h
    | committed hheight _ => exact h.adopt hheight
  | skip height =>
    unfold reported stall? Chain.call
    dsimp only
    rw [Option.toList_none, List.append_nil]
    cases hheight : c.checkHeight height with
    | error e =>
      rw [skip_eq_error hheight]
      exact h
    | ok _ =>
      rw [skip_eq hheight]
      exact h.pass hheight
  | boundary height proposals =>
    unfold reported stall? Chain.call
    dsimp only
    rw [Option.toList_none, List.append_nil]
    rcases hlegal.boundary_cases height proposals with hended | ⟨tip, -, -, hended⟩
    · rw [hended]
      exact h.endPeriods height proposals
    · rw [hended]
      exact h
  | recordStall height expected tried => exact absurd rfl (hx height expected tried)
  | reset => exact .start c.params

end Counts

end Steps

section Runs

variable {calls : List Call}

theorem Counts.run (h : c.Counts earlier) (hlegal : c.Legal)
    (hcalls : ∀ height expected tried, Call.recordStall height expected tried ∉ calls) :
    (c.run calls).Counts (c.stallsSince earlier calls) := by
  induction calls generalizing c earlier with
  | nil => exact h
  | cons x rest ih =>
    have hx : ∀ height expected tried, x ≠ .recordStall height expected tried := by
      rintro height expected tried rfl
      exact hcalls height expected tried List.mem_cons_self
    refine ih (h.call hlegal hx) (hlegal.call x) ?_
    intro height expected tried hmem
    exact hcalls height expected tried (List.mem_cons_of_mem x hmem)

/-- Stalls are counted exactly. In a run in which stalls come from blocks only, each stall is one of
the height of its block, and its number is one more than that of the stalls of this height since the
start or the last reset. The counts never exceed the number of stalls. -/
theorem stalls_counted_exactly (p : Params)
    (hcalls : ∀ height expected tried, Call.recordStall height expected tried ∉ calls)
    {expected : Digest} {packages : List Package} {stall : Stall}
    (hstall : (((start p).run calls).reconcile height expected packages).2 =
      .error (.stall stall)) :
    stall.height = height ∧
      stall.attempt = 1 + ((start p).stallsSince [] calls).countP (·.height = height) ∧
      stall.attempt ≤ 1 + ((start p).stallsSince [] calls).length := by
  have hcounts := (Counts.start p).run (.start p) hcalls
  obtain ⟨hlegal, -⟩ := (Legal.start p).run calls
  generalize (start p).run calls = c at hcounts hlegal hstall
  have hstep := hlegal.reconciles height expected packages
  generalize c.reconcile height expected packages = result at hstep hstall
  cases hstep with
  | refused hheight =>
    obtain ⟨next, -, -, rfl⟩ := checkHeight_eq_error hheight
    cases hstall
  | settled _ _ => cases hstall
  | stalled hheight _ _ =>
    obtain rfl := ChainError.stall.inj (Except.error.inj hstall)
    have hopen : c.Open height := by
      intro tip htip
      rw [checkHeight_eq_ok_iff.mp hheight tip htip]
      exact UInt64.le_refl height
    have hcount := hcounts height hopen
    refine ⟨rfl, ?_, ?_⟩
    · rw [recordStall, hcount, Nat.add_comm]
    · rw [recordStall, hcount, Nat.add_comm]
      exact Nat.add_le_add_left List.countP_le_length 1

/-- Two heights stall before the first block. After a reset, the count of the higher one outlasts a
block without a commitment, a stall and a commit at lower heights. -/
theorem third_stall_past_commit :
    let missing : Digest := ⟨List.replicate 32 1, rfl⟩
    let calls : List Call := [.reconcile 7 missing [], .reset, .reconcile 7 missing [],
      .reconcile 5 missing [], .reconcile 7 missing [], .skip 5, .reconcile 6 State.empty.hash []]
    (∀ height expected tried, Call.recordStall height expected tried ∉ calls) ∧
      (((start {}).run calls).reconcile 7 missing []).2 = .error (.stall ⟨7, missing, 1, 3⟩) ∧
      3 = 1 + ((start {}).stallsSince [] calls).countP (·.height = 7) := by
  intro missing calls
  have hcalls : ∀ height expected tried, Call.recordStall height expected tried ∉ calls := by
    simp [calls]
  have hstall : (((start {}).run calls).reconcile 7 missing []).2 =
      .error (.stall ⟨7, missing, 1, 3⟩) := by
    decide +kernel
  exact ⟨hcalls, hstall, (stalls_counted_exactly {} hcalls hstall).2.1⟩

end Runs

end Chain

end BundleTracker
