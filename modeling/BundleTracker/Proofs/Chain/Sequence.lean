import Mathlib.Tactic
import BundleTracker.Proofs.Chain.Runs

/-!
# The sequence of processed heights

Blocks are processed one after the other: each one has the height after the tip. The greatest
height is its own successor, so a run that has come there may process it again and again. Below
it there is no gap and no repetition.
-/

namespace BundleTracker

/-- Heights that follow each other go up by one until the greatest, where they stay. -/
theorem toNat_of_isChain {heights : List UInt64} (h : heights.IsChain (nextHeight · = ·))
    {first height : UInt64} {i : Nat} (hfirst : heights.head? = some first)
    (hi : heights[i]? = some height) :
    height.toNat = min (first.toNat + i) 0xffffffffffffffff := by
  induction i generalizing heights first with
  | zero =>
    rw [List.head?_eq_getElem?, hi] at hfirst
    obtain rfl := Option.some.inj hfirst
    have hlt := height.toNat_lt
    omega
  | succ i ih =>
    cases heights with
    | nil => cases hfirst
    | cons first' rest =>
      obtain rfl := Option.some.inj hfirst
      cases rest with
      | nil => cases hi
      | cons second rest =>
        obtain ⟨rfl, hrest⟩ := List.isChain_cons_cons.mp h
        rw [ih hrest rfl hi, toNat_nextHeight]
        omega

namespace Chain

variable {c : Chain} {height : UInt64}

def processed? (c : Chain) : Call → Option UInt64
  | .reconcile height expected packages =>
    match (c.reconcile height expected packages).2 with
    | .ok _ => some height
    | .error _ => none
  | .commit candidate =>
    match c.commit candidate with
    | .ok _ => some candidate.height
    | .error _ => none
  | .skip height =>
    match c.skip height with
    | .ok _ => some height
    | .error _ => none
  | _ => none

/-- The heights of the blocks that some calls process, in their order. -/
def processed (c : Chain) : List Call → List UInt64
  | [] => []
  | x :: rest => (c.processed? x).toList ++ (c.call x).processed rest

section Steps

theorem processed?_cases (hlegal : c.Legal) {x : Call} (hx : x ≠ .reset) :
    c.processed? x = none ∧ (c.call x).tip = c.tip ∨
      ∃ height, c.processed? x = some height ∧ c.checkHeight height = .ok () ∧
        (c.call x).tip = some height := by
  cases x with
  | reconcile height expected packages =>
    have hstep := hlegal.reconciles height expected packages
    unfold processed? call
    dsimp only
    generalize c.reconcile height expected packages = result at hstep ⊢
    cases hstep with
    | refused _ => exact Or.inl ⟨rfl, rfl⟩
    | settled hheight _ => exact Or.inr ⟨height, rfl, hheight, rfl⟩
    | stalled _ _ _ => exact Or.inl ⟨rfl, rfl⟩
  | commit candidate =>
    have hstep := c.commits candidate
    unfold processed? call
    dsimp only
    generalize c.commit candidate = result at hstep ⊢
    cases hstep with
    | refused _ => exact Or.inl ⟨rfl, rfl⟩
    | illegal _ _ => exact Or.inl ⟨rfl, rfl⟩
    | committed hheight _ => exact Or.inr ⟨candidate.height, rfl, hheight, rfl⟩
  | skip height =>
    unfold processed? call
    dsimp only
    cases hheight : c.checkHeight height with
    | error e =>
      rw [skip_eq_error hheight]
      exact Or.inl ⟨rfl, rfl⟩
    | ok _ =>
      rw [skip_eq hheight]
      exact Or.inr ⟨height, rfl, hheight, rfl⟩
  | boundary height proposals =>
    refine Or.inl ⟨rfl, ?_⟩
    rcases hlegal.boundary_cases height proposals with h | ⟨tip, -, -, h⟩
    · rw [call, h]
      exact tip_endPeriods proposals
    · rw [call, h]
      rfl
  | recordStall height expected tried => exact Or.inl ⟨rfl, rfl⟩
  | reset => exact absurd rfl hx

end Steps

section Runs

variable {calls : List Call}

theorem isChain_processed (hlegal : c.Legal) (hcalls : Call.reset ∉ calls) :
    (c.tip.toList ++ c.processed calls).IsChain (nextHeight · = ·) := by
  induction calls generalizing c with
  | nil => cases c.tip <;> simp [processed]
  | cons x rest ih =>
    rw [List.mem_cons, not_or] at hcalls
    obtain ⟨hx, hrest⟩ := hcalls
    have hchain := ih (hlegal.call x) hrest
    rw [processed]
    rcases processed?_cases hlegal (Ne.symm hx) with ⟨hnone, htip⟩ | ⟨height, hsome, hheight, htip⟩
    · rw [hnone, ← htip]
      exact hchain
    · rw [hsome]
      rw [htip] at hchain
      cases hc : c.tip with
      | none => exact hchain
      | some tip =>
        have hnext := checkHeight_eq_ok_iff.mp hheight tip hc
        exact List.isChain_cons_cons.mpr ⟨hnext, hchain⟩

theorem tip_run (hlegal : c.Legal) (hcalls : Call.reset ∉ calls) :
    (c.run calls).tip = (c.processed calls).getLast?.or c.tip := by
  induction calls generalizing c with
  | nil => rfl
  | cons x rest ih =>
    rw [List.mem_cons, not_or] at hcalls
    obtain ⟨hx, hrest⟩ := hcalls
    rw [run_cons, ih (hlegal.call x) hrest, processed]
    rcases processed?_cases hlegal (Ne.symm hx) with ⟨hnone, htip⟩ | ⟨height, hsome, -, htip⟩
    · rw [hnone, htip]
      rfl
    · rw [hsome, htip, List.getLast?_append]
      simp

/-- Blocks are processed one after the other. A block that goes through has the height after the
tip, unless both are the greatest height. What a run without resets processes goes up by one from
the first height on, without a gap, and without a repetition until the greatest height; the last
height is the tip. -/
theorem processed_in_sequence (p : Params) (hcalls : Call.reset ∉ calls) :
    (∀ tip height, ((start p).run calls).tip = some tip →
      ((∃ expected packages event,
          (((start p).run calls).reconcile height expected packages).2 = .ok event) ∨
        ∃ d, ((start p).run calls).skip height = .ok d) →
      height.toNat = tip.toNat + 1 ∨
        tip = 0xffffffffffffffff ∧ height = 0xffffffffffffffff) ∧
    (∀ (i : Nat) first height, ((start p).processed calls).head? = some first →
      ((start p).processed calls)[i]? = some height →
      height.toNat = min (first.toNat + i) 0xffffffffffffffff) ∧
    ((start p).run calls).tip = ((start p).processed calls).getLast? := by
  obtain ⟨hlegal, -⟩ := (Legal.start p).run calls
  refine ⟨?_, ?_, ?_⟩
  · intro tip height htip hok
    generalize (start p).run calls = c at hlegal htip hok
    have haccepted : c.checkHeight height = .ok () := by
      rcases hok with ⟨expected, packages, event, hok⟩ | ⟨d, hok⟩
      · have hstep := hlegal.reconciles height expected packages
        generalize c.reconcile height expected packages = result at hok hstep
        cases hstep with
        | refused _ => cases hok
        | settled hheight _ => exact hheight
        | stalled _ _ _ => cases hok
      · cases hheight : c.checkHeight height with
        | error e =>
          rw [skip_eq_error hheight] at hok
          cases hok
        | ok _ => rfl
    exact succ_or_greatest_of_checkHeight haccepted htip
  · intro i first height hfirst hi
    exact toNat_of_isChain (isChain_processed (Legal.start p) hcalls) hfirst hi
  · rw [tip_run (Legal.start p) hcalls]
    exact Option.or_none

/-- A run with a block that is refused in between, up to the height after its tip. -/
theorem sequence_past_refusal :
    let calls : List Call := [.skip 7, .skip 8, .skip 8, .reconcile 9 State.empty.hash []]
    Call.reset ∉ calls ∧ (start {}).processed calls = [7, 8, 9] ∧
      ((start {}).run calls).tip = some 9 ∧
      (∃ d, ((start {}).run calls).skip 10 = .ok d) ∧
      (10 : UInt64).toNat = (9 : UInt64).toNat + 1 ∧
      (9 : UInt64).toNat = min ((7 : UInt64).toNat + 2) 0xffffffffffffffff := by
  intro calls
  have hcalls : Call.reset ∉ calls := by simp [calls]
  have hprocessed : (start {}).processed calls = [7, 8, 9] := by decide +kernel
  have hheight : ((start {}).run calls).checkHeight 10 = .ok () := by decide +kernel
  obtain ⟨hnext, hsequence, htip⟩ := processed_in_sequence {} hcalls
  rw [hprocessed] at hsequence htip
  refine ⟨hcalls, hprocessed, htip, ⟨_, skip_eq hheight⟩, ?_, hsequence 2 7 9 rfl rfl⟩
  exact (hnext 9 10 htip (Or.inr ⟨_, skip_eq hheight⟩)).resolve_right (by decide)

/-- After the block at the greatest height that height is accepted again, with and without a
commitment. -/
theorem greatest_height_repeats :
    let greatest : UInt64 := 0xffffffffffffffff
    let c := (start {}).run [.skip greatest]
    c.tip = some greatest ∧ (∃ d, c.skip greatest = .ok d) ∧
      (∃ event, (c.reconcile greatest State.empty.hash []).2 = .ok event) ∧
      c.processed [.skip greatest, .reconcile greatest State.empty.hash []] =
        [greatest, greatest] ∧
      greatest.toNat ≠ greatest.toNat + 1 := by
  intro greatest c
  have hheight : c.checkHeight greatest = .ok () := by decide +kernel
  have hreconciled : (c.reconcile greatest State.empty.hash []).2.toOption.isSome = true := by
    decide +kernel
  refine ⟨by decide +kernel, ⟨_, skip_eq hheight⟩, ?_, by decide +kernel, by decide⟩
  cases hresult : (c.reconcile greatest State.empty.hash []).2 with
  | ok event => exact ⟨event, rfl⟩
  | error e =>
    rw [hresult] at hreconciled
    cases hreconciled

end Runs

end Chain

end BundleTracker
