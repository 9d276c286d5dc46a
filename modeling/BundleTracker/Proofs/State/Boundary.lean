import Mathlib.Tactic
import BundleTracker.Proofs.State.Countdown
import BundleTracker.Proofs.State.Listing

/-!
# What the end of periods leaves behind

Proposals are taken one after the other, and each is held against the records that the earlier ones
have left. So the first of several proposals of a bundle counts, and a sidechain whose period ends
has one new record for each bundle that is proposed for it, in the order of the first proposals.
-/

namespace BundleTracker

section FirstOccurrences

variable {α : Type} [DecidableEq α]

theorem eraseDups_concat (l : List α) (a : α) :
    (l ++ [a]).eraseDups = if a ∈ l then l.eraseDups else l.eraseDups ++ [a] := by
  rw [List.eraseDups_append, List.removeAll]
  split_ifs with hmem
  · simp [hmem]
  · simp [hmem, List.eraseDups_cons]

theorem filter_eraseDups (keep : α → Bool) (l : List α) :
    l.eraseDups.filter keep = (l.filter keep).eraseDups := by
  induction l using List.reverseRecOn with
  | nil => rfl
  | append_singleton l a ih =>
    rw [eraseDups_concat, List.filter_append]
    by_cases hkeep : keep a = true
    · rw [List.filter_singleton, hkeep, cond_true, eraseDups_concat]
      by_cases hmem : a ∈ l
      · simp [hmem, hkeep, ih]
      · simp [hmem, hkeep, ih]
    · by_cases hmem : a ∈ l
      · simp [hmem, hkeep, ih]
      · simp [hmem, hkeep, ih]

end FirstOccurrences

namespace State

variable {s : State} {p : Params} {opened : List UInt8} {bundle other : Bundle} {i : UInt8}
  {sidechain : Sidechain} {proposals rest : List Bundle} {height : UInt64}

/-- The bundles that may be tracked afresh, by their first proposals. -/
def firstProposals (s : State) (p : Params) (opened : List UInt8) (proposals : List Bundle) :
    List Bundle :=
  (proposals.filter fun b => (s.admits p opened b).isSome).eraseDups

section Seeding

/-- A bundle that is tracked afresh is not admitted again, and the others are not affected. -/
theorem isSome_admits_track :
    ((s.track p sidechain bundle).admits p opened other).isSome ↔
      (s.admits p opened other).isSome ∧ other ≠ bundle := by
  have hon : bundles ((s.track p sidechain bundle).on other.sidechain) =
      if bundle.sidechain = other.sidechain then bundles (s.on other.sidechain) ++ [bundle]
      else bundles (s.on other.sidechain) := by
    rw [on_track]
    split_ifs <;> simp
  simp only [Option.isSome_iff_exists, admits_eq_some_iff, hon]
  constructor
  · rintro ⟨target, htarget, hopened, hnew⟩
    split_ifs at hnew with hsame
    · rw [List.mem_append, List.mem_singleton, not_or] at hnew
      exact ⟨⟨target, htarget, hopened, hnew.1⟩, hnew.2⟩
    · exact ⟨⟨target, htarget, hopened, hnew⟩, fun heq => hsame (by rw [heq])⟩
  · rintro ⟨⟨target, htarget, hopened, hnew⟩, hne⟩
    refine ⟨target, htarget, hopened, ?_⟩
    split_ifs
    · simp [hnew, hne]
    · exact hnew

theorem firstProposals_cons_of_none (h : s.admits p opened bundle = none) :
    s.firstProposals p opened (bundle :: rest) = s.firstProposals p opened rest := by
  simp [firstProposals, h]

theorem firstProposals_cons_of_some (h : s.admits p opened bundle = some sidechain) :
    s.firstProposals p opened (bundle :: rest) =
      bundle :: (s.track p sidechain bundle).firstProposals p opened rest := by
  have hfilter :
      (rest.filter fun b => (s.admits p opened b).isSome).filter (fun b => !b == bundle) =
        rest.filter fun b => ((s.track p sidechain bundle).admits p opened b).isSome := by
    rw [List.filter_filter]
    refine List.filter_congr fun b _ => ?_
    rw [Bool.eq_iff_iff, isSome_admits_track]
    simp [and_comm]
  rw [firstProposals, List.filter_cons_of_pos (by simp [h]), List.eraseDups_cons, hfilter]
  rfl

theorem seeded_eq (s : State) (p : Params) (opened : List UInt8) (proposals : List Bundle) :
    (s.seed p opened proposals).2 = s.firstProposals p opened proposals := by
  induction proposals generalizing s with
  | nil => rfl
  | cons bundle rest ih =>
    unfold seed
    split
    · rename_i sidechain hadmits
      rw [firstProposals_cons_of_some hadmits, ← ih]
    · rename_i hnone
      rw [firstProposals_cons_of_none hnone, ih]

/-- Proposals that are not admitted and repeated ones change nothing. -/
theorem seed_firstProposals (s : State) (p : Params) (opened : List UInt8)
    (proposals : List Bundle) :
    s.seed p opened (s.firstProposals p opened proposals) = s.seed p opened proposals := by
  induction proposals generalizing s with
  | nil => rfl
  | cons bundle rest ih =>
    cases hadmits : s.admits p opened bundle with
    | none =>
      rw [firstProposals_cons_of_none hadmits, ih, seed, hadmits]
    | some sidechain =>
      rw [firstProposals_cons_of_some hadmits, seed, hadmits, seed, hadmits]
      simp only [ih]

theorem on_seed (hs : p.sidechain? i = some sidechain) (s : State) (opened : List UInt8)
    (proposals : List Bundle) :
    (s.seed p opened proposals).1.on i =
      s.on i ++ (((s.seed p opened proposals).2.filter (·.sidechain = i)).map fun b =>
        ⟨b, min p.initialScore sidechain.period, sidechain.period⟩) := by
  induction proposals generalizing s with
  | nil => simp [seed]
  | cons bundle rest ih =>
    unfold seed
    split
    · rename_i target hadmits
      obtain ⟨htarget, -, -⟩ := admits_eq_some_iff.mp hadmits
      dsimp only
      rw [ih, on_track]
      by_cases hi : bundle.sidechain = i
      · rw [hi] at htarget
        obtain rfl := Option.some.inj (hs.symm.trans htarget)
        simp [hi]
      · simp [hi]
    · exact ih s

end Seeding

section Boundary

theorem elapsed_iff {table : SidechainTable} :
    i ∈ table.elapsedAt height ↔ ∃ sidechain, table.get? i = some sidechain ∧
      0 < height.toNat ∧ sidechain.period.toNat ∣ height.toNat := by
  simp only [SidechainTable.mem_elapsedAt, Sidechain.elapsesAt_iff]

theorem ascending_elapsedAt (table : SidechainTable) (height : UInt64) :
    (table.elapsedAt height).Pairwise (· < ·) :=
  table.ascending_toList.sublist (List.filter_sublist.map _)

theorem firstProposals_clear (s : State) (p : Params) (height : UInt64) (proposals : List Bundle) :
    (s.clear (p.sidechains.elapsedAt height)).firstProposals p (p.sidechains.elapsedAt height)
        proposals =
      (proposals.filter (·.sidechain ∈ p.sidechains.elapsedAt height)).eraseDups := by
  rw [firstProposals]
  congr 1
  refine List.filter_congr fun b _ => ?_
  rw [Bool.eq_iff_iff, decide_eq_true_eq, Option.isSome_iff_exists]
  simp only [admits_eq_some_iff, on_clear]
  constructor
  · rintro ⟨sidechain, -, hopened, -⟩
    exact hopened
  · intro helapsed
    obtain ⟨sidechain, hs, -⟩ := elapsed_iff.mp helapsed
    exact ⟨sidechain, hs, helapsed, by simp [helapsed]⟩

theorem cleared_eq (s : State) (p : Params) (height : UInt64) (proposals : List Bundle) :
    (s.boundary p height proposals).2.cleared = p.sidechains.elapsedAt height := by
  rw [boundary_eq_seed]

theorem boundary_seeded_eq (s : State) (p : Params) (height : UInt64) (proposals : List Bundle) :
    (s.boundary p height proposals).2.seeded =
      (proposals.filter (·.sidechain ∈ p.sidechains.elapsedAt height)).eraseDups := by
  rw [boundary_eq_seed, seeded_eq, firstProposals_clear]

theorem on_boundary_of_elapsed (hs : p.sidechain? i = some sidechain)
    (hi : i ∈ p.sidechains.elapsedAt height) (s : State) (proposals : List Bundle) :
    (s.boundary p height proposals).1.on i =
      (proposals.filter (·.sidechain = i)).eraseDups.map fun b =>
        ⟨b, min p.initialScore sidechain.period, sidechain.period⟩ := by
  have hfilter : (proposals.filter (·.sidechain ∈ p.sidechains.elapsedAt height)).filter
      (·.sidechain = i) = proposals.filter (·.sidechain = i) := by
    rw [List.filter_filter]
    refine List.filter_congr fun b _ => ?_
    by_cases hb : b.sidechain = i <;> simp [hb, hi]
  rw [boundary_eq, on_seed hs, on_clear, if_pos hi, List.nil_append, seeded_eq,
    firstProposals_clear, filter_eraseDups, hfilter]

/-- Only the first proposals of sidechains whose period ends count. -/
theorem boundary_congr {others : List Bundle}
    (h : (others.filter (·.sidechain ∈ p.sidechains.elapsedAt height)).eraseDups =
      (proposals.filter (·.sidechain ∈ p.sidechains.elapsedAt height)).eraseDups) (s : State) :
    s.boundary p height others = s.boundary p height proposals := by
  rw [← firstProposals_clear s, ← firstProposals_clear s] at h
  rw [boundary_eq_seed, boundary_eq_seed, ← seed_firstProposals _ _ _ others, h,
    seed_firstProposals]

theorem passes_boundary_of_elapsed (hp : p.Valid) (hs : p.sidechain? i = some sidechain)
    (hi : i ∈ p.sidechains.elapsedAt height) (s : State) (proposals : List Bundle)
    (digest : Digest) : (s.boundary p height proposals).1.passes sidechain digest = false := by
  obtain rfl := p.sidechains.index_eq hs
  rw [passes, Option.any_eq_false]
  intro r hr
  obtain ⟨other, hother, -, hnew⟩ := mem_on_boundary_of_elapsed hi (List.mem_of_find?_eq_some hr)
  obtain rfl := Option.some.inj (hs.symm.trans hother)
  have hlt : min p.initialScore sidechain.period < sidechain.threshold :=
    UInt16.lt_of_le_of_lt Std.min_le_left (hp.initialScore_lt_threshold hs)
  rw [hnew]
  simpa using hlt

/-- What the end of periods leaves. A registered sidechain whose period ends at the height has one
record for each bundle that is proposed for it, in the order of first proposals, with the initial
workscore, within the period, and a full period of blocks; every other one has the records that it
had. The outcome lists the sidechains whose periods end, in ascending order, and the first proposals
for them in the order of all proposals, and no other proposals have any effect. Under valid
parameters no bundle of the sidechains whose periods end passes. -/
theorem boundary_starts_afresh (s : State) (p : Params) (height : UInt64)
    (proposals : List Bundle) :
    let after := s.boundary p height proposals
    (∀ i sidechain, p.sidechain? i = some sidechain →
      0 < height.toNat → sidechain.period.toNat ∣ height.toNat →
        after.1.on i = (proposals.filter (·.sidechain = i)).eraseDups.map fun b =>
          ⟨b, min p.initialScore sidechain.period, sidechain.period⟩) ∧
    (∀ i, (∀ sidechain, p.sidechain? i = some sidechain →
      ¬ (0 < height.toNat ∧ sidechain.period.toNat ∣ height.toNat)) → after.1.on i = s.on i) ∧
    after.2.cleared.Pairwise (· < ·) ∧
    (∀ i, i ∈ after.2.cleared ↔ ∃ sidechain, p.sidechain? i = some sidechain ∧
      0 < height.toNat ∧ sidechain.period.toNat ∣ height.toNat) ∧
    after.2.seeded = (proposals.filter (·.sidechain ∈ after.2.cleared)).eraseDups ∧
    (∀ others : List Bundle,
      (others.filter (·.sidechain ∈ after.2.cleared)).eraseDups = after.2.seeded →
        s.boundary p height others = after) ∧
    (p.Valid → ∀ i ∈ after.2.cleared, ∀ sidechain, p.sidechain? i = some sidechain →
      ∀ digest, after.1.passes sidechain digest = false) := by
  intro after
  have hcleared : after.2.cleared = p.sidechains.elapsedAt height := s.cleared_eq p height proposals
  have hseeded : after.2.seeded =
      (proposals.filter (·.sidechain ∈ p.sidechains.elapsedAt height)).eraseDups :=
    s.boundary_seeded_eq p height proposals
  rw [hcleared, hseeded]
  refine ⟨?_, ?_, ascending_elapsedAt _ _, fun i => elapsed_iff, rfl, ?_, ?_⟩
  · intro i sidechain hs hpos hdvd
    exact on_boundary_of_elapsed hs (elapsed_iff.mpr ⟨sidechain, hs, hpos, hdvd⟩) s proposals
  · intro i hother
    refine on_boundary_of_not_elapsed (fun hi => ?_) s proposals
    obtain ⟨sidechain, hs, hends⟩ := elapsed_iff.mp hi
    exact hother sidechain hs hends
  · intro others h
    exact boundary_congr h s
  · intro hp i hi sidechain hs digest
    exact passes_boundary_of_elapsed hp hs hi s proposals digest

/-- Two of three periods end at one height; proposals for the third sidechain, for one that is not
registered, and repeated ones come in between. -/
theorem boundary_starts_afresh_for_two :
    let table : SidechainTable :=
      ((SidechainTable.empty.insert ⟨0, "test", 5, 2⟩ (by decide)).insert
        ⟨1, "hivemind", 10, 4⟩ (by decide)).insert ⟨2, "wimble", 7, 3⟩ (by decide)
    let p : Params := { initialScore := 1, sidechains := table }
    let first : Digest := Block.zero 32
    let second : Digest := ⟨List.replicate 32 1, rfl⟩
    let s := State.after [.score ⟨0, "test", 5, 2⟩ first 4, .score ⟨2, "wimble", 7, 3⟩ second 2]
    let proposals : List Bundle :=
      [⟨1, second⟩, ⟨0, second⟩, ⟨2, first⟩, ⟨1, second⟩, ⟨9, first⟩, ⟨0, first⟩, ⟨0, second⟩]
    let after := s.boundary p 10 proposals
    p.Valid ∧ p.sidechain? 0 = some ⟨0, "test", 5, 2⟩ ∧ 0 < (10 : UInt64).toNat ∧
      (5 : UInt16).toNat ∣ (10 : UInt64).toNat ∧
      after.1.on 0 = [⟨⟨0, second⟩, 1, 5⟩, ⟨⟨0, first⟩, 1, 5⟩] ∧
      after.1.on 1 = [⟨⟨1, second⟩, 1, 10⟩] ∧ after.1.on 2 = [⟨⟨2, second⟩, 2, 7⟩] ∧
      after.2.seeded = [⟨1, second⟩, ⟨0, second⟩, ⟨0, first⟩] ∧
      after.1.passes ⟨0, "test", 5, 2⟩ first = false := by
  intro table p first second s proposals after
  have hp : p.Valid := Params.check_eq_ok_iff.mp (by decide +kernel)
  have hzero : p.sidechain? 0 = some ⟨0, "test", 5, 2⟩ := by decide +kernel
  have hone : p.sidechain? 1 = some ⟨1, "hivemind", 10, 4⟩ := by decide +kernel
  have htwo : p.sidechain? 2 = some ⟨2, "wimble", 7, 3⟩ := by decide +kernel
  have hcleared : after.2.cleared = [0, 1] := by decide +kernel
  obtain ⟨hon, hkept, -, -, hseeded, -, hpasses⟩ := boundary_starts_afresh s p 10 proposals
  refine ⟨hp, hzero, by decide, by decide, ?_, ?_, ?_, ?_, ?_⟩
  · refine (hon 0 _ hzero (by decide) (by decide)).trans ?_
    decide +kernel
  · refine (hon 1 _ hone (by decide) (by decide)).trans ?_
    decide +kernel
  · refine (hkept 2 fun sidechain hs => ?_).trans (by decide +kernel)
    obtain rfl := Option.some.inj (htwo.symm.trans hs)
    decide
  · simp only [after]
    rw [hseeded]
    decide +kernel
  · exact hpasses hp 0 (by simp only [after] at hcleared; rw [hcleared]; decide) _ hzero first

end Boundary

end State

end BundleTracker
