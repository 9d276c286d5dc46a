import Mathlib.Tactic
import BundleTracker.Proofs.Chain.Sequence

/-!
# The heights whose periods were ended

A chain remembers only the height whose periods it ended last, and compares heights with the tip
only once there is one. From the first block on the tip goes up and every height comes up once,
so that is enough. Before the first block periods can be ended at any height, and those of a
height again after those of another one.
-/

namespace BundleTracker

namespace Chain

variable {c : Chain} {height tip : UInt64}

def ended? (c : Chain) : Call → Option UInt64
  | .boundary height proposals =>
    match c.boundary height proposals with
    | .ok (_, some _) => some height
    | _ => none
  | _ => none

/-- The heights whose periods some calls end, in their order. -/
def ended (c : Chain) : List Call → List UInt64
  | [] => []
  | x :: rest => (c.ended? x).toList ++ (c.call x).ended rest

section Steps

inductive Ends (c : Chain) (height : UInt64) : Option UInt64 → Chain → Prop
  | nothing : Ends c height none c
  | ended {d : Chain} : (∀ tip, c.tip = some tip → tip = height) → c.lastBoundary ≠ some height →
      d.tip = c.tip → d.lastBoundary = some height → Ends c height (some height) d

theorem Legal.ends (hlegal : c.Legal) (height : UInt64) (proposals : List Bundle) :
    c.Ends height (c.ended? (.boundary height proposals))
      (c.call (.boundary height proposals)) := by
  rcases hlegal.boundary_cases height proposals with h | ⟨tip, -, -, h⟩
  · have htip : ∀ tip, c.tip = some tip → tip = height := by
      intro tip htip
      by_contra hne
      simp only [boundary, htip, if_pos hne] at h
      cases h
    unfold ended? Chain.call
    simp only [h]
    unfold Chain.endPeriods
    split_ifs with hnothing
    · exact .nothing
    · exact .ended htip (fun hlast => hnothing (Or.inl hlast)) rfl rfl
  · unfold ended? Chain.call
    simp only [h]
    exact .nothing

theorem call_boundary_of_ended?_eq_none (hlegal : c.Legal) {proposals : List Bundle}
    (h : c.ended? (.boundary height proposals) = none) :
    c.call (.boundary height proposals) = c := by
  have hstep := hlegal.ends height proposals
  rw [h] at hstep
  generalize c.call (.boundary height proposals) = d at hstep ⊢
  cases hstep with
  | nothing => rfl

theorem lastBoundary_call (hlegal : c.Legal) {x : Call} (hx : x ≠ .reset) :
    (c.call x).lastBoundary = (c.ended? x).or c.lastBoundary := by
  cases x with
  | reconcile height expected packages =>
    have hstep := hlegal.reconciles height expected packages
    unfold call
    dsimp only
    generalize c.reconcile height expected packages = result at hstep ⊢
    cases hstep <;> rfl
  | commit candidate =>
    have hstep := c.commits candidate
    unfold call
    dsimp only
    generalize c.commit candidate = result at hstep ⊢
    cases hstep <;> rfl
  | skip height =>
    unfold call
    dsimp only
    cases hheight : c.checkHeight height with
    | error e =>
      rw [skip_eq_error hheight]
      rfl
    | ok _ =>
      rw [skip_eq hheight]
      rfl
  | boundary height proposals =>
    have hstep := hlegal.ends height proposals
    generalize c.ended? (.boundary height proposals) = ended at hstep ⊢
    generalize c.call (.boundary height proposals) = d at hstep ⊢
    cases hstep with
    | nothing => rfl
    | ended _ _ _ hlast => exact hlast
  | recordStall height expected tried => rfl
  | reset => exact absurd rfl hx

theorem of_ended?_eq_some (hlegal : c.Legal) {x : Call} (h : c.ended? x = some height)
    (htip : c.tip = some tip) :
    height = tip ∧ c.lastBoundary ≠ some tip ∧ (c.call x).tip = some tip := by
  cases x with
  | boundary height' proposals =>
    have hstep := hlegal.ends height' proposals
    rw [h] at hstep
    generalize c.call (.boundary height' proposals) = d at hstep ⊢
    cases hstep with
    | ended hlast hnew hsame _ =>
      obtain rfl := hlast tip htip
      exact ⟨rfl, hnew, hsame.trans htip⟩
  | _ => cases h

theorem le_tip_call (hlegal : c.Legal) {x : Call} (hx : x ≠ .reset) (htip : c.tip = some tip) :
    ∃ next, (c.call x).tip = some next ∧ tip ≤ next := by
  rcases processed?_cases hlegal hx with ⟨-, hsame⟩ | ⟨next, -, hheight, hnext⟩
  · exact ⟨tip, hsame.trans htip, UInt64.le_refl tip⟩
  · refine ⟨next, hnext, ?_⟩
    rcases succ_or_greatest_of_checkHeight hheight htip with hsucc | ⟨rfl, rfl⟩
    · exact UInt64.le_iff_toNat_le.mpr (by omega)
    · exact UInt64.le_refl _

end Steps

section Runs

variable {calls : List Call}

theorem lastBoundary_run (hlegal : c.Legal) (hcalls : Call.reset ∉ calls) :
    (c.run calls).lastBoundary = (c.ended calls).getLast?.or c.lastBoundary := by
  induction calls generalizing c with
  | nil => rfl
  | cons x rest ih =>
    rw [List.mem_cons, not_or] at hcalls
    obtain ⟨hx, hrest⟩ := hcalls
    rw [run_cons, ih (hlegal.call x) hrest, lastBoundary_call hlegal (Ne.symm hx), ended,
      List.getLast?_append, Option.or_assoc]
    congr 1
    cases c.ended? x <;> rfl

theorem ended_concat (c : Chain) (calls : List Call) (x : Call) :
    c.ended (calls ++ [x]) = c.ended calls ++ ((c.run calls).ended? x).toList := by
  induction calls generalizing c with
  | nil => simp [ended, run]
  | cons first rest ih => simp [ended, ih]

theorem tip_le_of_mem_ended (hlegal : c.Legal) (hcalls : Call.reset ∉ calls)
    (htip : c.tip = some tip) (h : height ∈ c.ended calls) :
    tip ≤ height ∧ (c.lastBoundary = some tip → tip < height) := by
  induction calls generalizing c tip with
  | nil => cases h
  | cons x rest ih =>
    rw [List.mem_cons, not_or] at hcalls
    obtain ⟨hx, hrest⟩ := hcalls
    obtain ⟨next, hnext, hle⟩ := le_tip_call hlegal (Ne.symm hx) htip
    rw [ended, List.mem_append, Option.mem_toList] at h
    rcases h with hnow | hlater
    · obtain ⟨rfl, hnew, -⟩ := of_ended?_eq_some hlegal hnow htip
      exact ⟨UInt64.le_refl height, fun hlast => absurd hlast hnew⟩
    · obtain ⟨habove, hstrict⟩ := ih (hlegal.call x) hrest hnext hlater
      refine ⟨UInt64.le_trans hle habove, fun hlast => ?_⟩
      rcases UInt64.lt_or_eq_of_le hle with hlt | rfl
      · exact UInt64.lt_of_lt_of_le hlt habove
      · apply hstrict
        rw [lastBoundary_call hlegal (Ne.symm hx), hlast]
        cases hended : c.ended? x with
        | none => rfl
        | some ended =>
          obtain ⟨rfl, -, -⟩ := of_ended?_eq_some hlegal hended htip
          rfl

theorem pairwise_ended (hlegal : c.Legal) (hcalls : Call.reset ∉ calls)
    (htip : c.tip = some tip) : (c.ended calls).Pairwise (· < ·) := by
  induction calls generalizing c tip with
  | nil => exact .nil
  | cons x rest ih =>
    rw [List.mem_cons, not_or] at hcalls
    obtain ⟨hx, hrest⟩ := hcalls
    obtain ⟨next, hnext, -⟩ := le_tip_call hlegal (Ne.symm hx) htip
    have hpairwise := ih (hlegal.call x) hrest hnext
    rw [ended]
    cases hended : c.ended? x with
    | none => exact hpairwise
    | some height =>
      obtain ⟨rfl, -, hsame⟩ := of_ended?_eq_some hlegal hended htip
      have hlast : (c.call x).lastBoundary = some height := by
        rw [lastBoundary_call hlegal (Ne.symm hx), hended]
        rfl
      refine List.pairwise_cons.mpr ⟨fun later hlater => ?_, hpairwise⟩
      exact (tip_le_of_mem_ended (hlegal.call x) hrest hsame hlater).2 hlast

/-- Periods that were ended are not ended again, once there was a tip or as long as no others are
ended in between. -/
theorem ended?_eq_none_of_ended (hlegal : c.Legal) (hcalls : Call.reset ∉ calls)
    (hlast : c.lastBoundary = some height)
    (horder : c.tip = some height ∨ ∀ other ∈ c.ended calls, other = height)
    (again : List Bundle) : (c.run calls).ended? (.boundary height again) = none := by
  have hlegal' := (hlegal.run calls).1
  rw [Option.eq_none_iff_forall_ne_some]
  intro height' hended
  have hstep := hlegal'.ends height again
  rw [hended] at hstep
  generalize (c.run calls).call (.boundary height again) = d at hstep
  cases hstep with
  | ended _ hnew _ _ =>
    rcases horder with htip | hsame
    · have hmem : height ∈ c.ended (calls ++ [.boundary height again]) := by
        rw [ended_concat, hended]
        simp
      have hcalls' : Call.reset ∉ calls ++ [.boundary height again] := by simpa using hcalls
      have habove := (tip_le_of_mem_ended hlegal hcalls' htip hmem).2 hlast
      exact UInt64.lt_irrefl height habove
    · apply hnew
      rw [lastBoundary_run hlegal hcalls, hlast]
      cases hother : (c.ended calls).getLast? with
      | none => rfl
      | some other =>
        rw [hsame other (List.mem_of_getLast? hother)]
        rfl

/-- The periods of a height are ended once. After they were, every other call for that height
leaves the chain as it is, whatever it proposes, unless there was no block yet and the periods of
another height were ended in between. From the first block on, the heights whose periods are ended
go up. -/
theorem periods_end_once (p : Params) {before after : List Call}
    (hcalls : Call.reset ∉ before ++ after) :
    (∀ tip, ((start p).run before).tip = some tip →
      (((start p).run before).ended after).Pairwise (· < ·)) ∧
    ∀ height proposals,
      ((start p).run before).ended? (.boundary height proposals) = some height →
      (((start p).run before).tip = none →
        ∀ other ∈ (((start p).run before).call (.boundary height proposals)).ended after,
          other = height) →
      ∀ again,
        ((start p).run (before ++ .boundary height proposals :: after)).ended?
          (.boundary height again) = none ∧
        ((start p).run (before ++ .boundary height proposals :: after)).call
            (.boundary height again) =
          (start p).run (before ++ .boundary height proposals :: after) := by
  have hafter : Call.reset ∉ after := fun h => hcalls (List.mem_append_right before h)
  have hlegal := ((Legal.start p).run before).1
  refine ⟨fun tip htip => pairwise_ended hlegal hafter htip, ?_⟩
  intro height proposals hended horder again
  have hrun : (start p).run (before ++ .boundary height proposals :: after) =
      (((start p).run before).call (.boundary height proposals)).run after := by
    rw [run, List.foldl_append]
    rfl
  rw [hrun]
  generalize (start p).run before = c at *
  have hnext := hlegal.call (.boundary height proposals)
  have hlast : (c.call (.boundary height proposals)).lastBoundary = some height := by
    rw [lastBoundary_call hlegal (by simp), hended]
    rfl
  have hnot := ended?_eq_none_of_ended hnext hafter hlast ?_ again
  · exact ⟨hnot, call_boundary_of_ended?_eq_none (hnext.run after).1 hnot⟩
  · cases htip : c.tip with
    | none => exact Or.inr (horder htip)
    | some tip =>
      obtain ⟨rfl, -, hsame⟩ := of_ended?_eq_some hlegal hended htip
      exact Or.inl hsame

/-- The periods that end with the block at 300 were ended, and one more block has come. -/
theorem periods_end_once_at_tip :
    let proposed : Bundle := ⟨0, Block.zero 32⟩
    let late : Bundle := ⟨1, Block.zero 32⟩
    let before : List Call := [.skip 299, .skip 300]
    let calls : List Call := before ++ .boundary 300 [proposed] :: [.boundary 300 [], .skip 301]
    ((start {}).run before).ended? (.boundary 300 [proposed]) = some 300 ∧
      ((start {}).run before).tip = some 300 ∧
      ((start {}).run calls).ended? (.boundary 300 [late]) = none ∧
      ((start {}).run calls).call (.boundary 300 [late]) = (start {}).run calls := by
  intro proposed late before calls
  have hended : ((start {}).run before).ended? (.boundary 300 [proposed]) = some 300 := by
    decide +kernel
  have htip : ((start {}).run before).tip = some 300 := by decide +kernel
  have hcalls : Call.reset ∉ before ++ [.boundary 300 [], .skip 301] := by simp [before]
  refine ⟨hended, htip, (periods_end_once {} hcalls).2 300 [proposed] hended ?_ [late]⟩
  intro hnone
  rw [htip] at hnone
  cases hnone

/-- Before the first block the periods of one height are ended again after those of another one, and
what is proposed then is tracked. -/
theorem periods_end_again :
    let first : Bundle := ⟨0, Block.zero 32⟩
    let second : Bundle := ⟨1, Block.zero 32⟩
    let calls : List Call := [.boundary 300 [first], .boundary 600 []]
    let again : Call := .boundary 300 [second]
    Call.reset ∉ calls ++ [again] ∧
      (start {}).ended (calls ++ [again]) = [300, 600, 300] ∧
      ((start {}).run (calls ++ [again])).state ≠ ((start {}).run calls).state ∧
      ((start {}).run (calls ++ [again])).hash ≠ ((start {}).run calls).hash := by
  intro first second calls again
  refine ⟨by simp [calls, again], ?_, ?_, ?_⟩ <;> decide +kernel

end Runs

end Chain

end BundleTracker
