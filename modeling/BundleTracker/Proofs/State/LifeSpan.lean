import Mathlib.Tactic
import BundleTracker.Proofs.State.Boundary
import BundleTracker.Proofs.State.Tenure

/-!
# The life span of a record

A record starts with the period of its sidechain, and every selection that is committed takes one
block from it, the one that creates it included. New scores do not lengthen the window. When the
window is over, the workscore decides at every further selection whether the record stays. Otherwise
a record goes only with the period of its sidechain.
-/

namespace BundleTracker

namespace Change

def isSelection : Change → Bool
  | .selection _ => true
  | _ => false

end Change

/-- The number of committed selections among some changes. -/
def settledBlocks (changes : List Change) : Nat := changes.countP Change.isSelection

/-- What becomes of a bundle with this workscore in the block in which the record has its `age`-th
one: the record stays with the rest of its window, or the window is over below the threshold, and
then the record goes and the bundle is named once among the expired ones. -/
def Sidechain.Judges (s : Sidechain) (bundle : Bundle) (workscore : UInt16) (age : Nat)
    (after : State) (expired : List Bundle) : Prop :=
  if s.period.toNat ≤ age ∧ workscore < s.threshold then
    after.find? bundle = none ∧ expired.count bundle = 1
  else
    after.find? bundle = some ⟨bundle, workscore, UInt16.ofNat (s.period.toNat - age)⟩ ∧
      bundle ∉ expired

namespace State

variable {s : State} {p : Params} {table : SidechainTable} {sidechain : Sidechain}
  {bundle : Bundle} {r : Record} {updates : List Update}

section Expiry

theorem toNat_blocksLeft_of_judges {workscore : UInt16} {age : Nat} {expired : List Bundle}
    (h : sidechain.Judges bundle workscore age s expired) (hr : s.find? bundle = some r) :
    r.blocksLeft.toNat = sidechain.period.toNat - age := by
  unfold Sidechain.Judges at h
  split_ifs at h with hover
  · rw [h.1] at hr
    cases hr
  · rw [h.1] at hr
    obtain rfl := Option.some.inj hr
    exact UInt16.toNat_ofNat_of_lt'
      (Nat.lt_of_le_of_lt (Nat.sub_le _ _) sidechain.period.toNat_lt)

theorem count_expired (hs : s.Canonical) (table : SidechainTable) (bundle : Bundle) :
    ((s.expired table).map (·.bundle)).count bundle =
      if (s.find? bundle).any (!·.lives table) then 1 else 0 := by
  have hon : ((s.expired table).map (·.bundle)).count bundle =
      (bundles ((s.on bundle.sidechain).filter (!·.lives table))).count bundle := by
    rw [on_eq_filter hs, expired, bundles, List.count_eq_countP, List.count_eq_countP,
      List.countP_map, List.countP_map, List.filter_filter, List.countP_filter, List.countP_filter]
    refine List.countP_congr fun r _ => ?_
    by_cases hr : r.bundle = bundle <;> simp [hr]
  have hnodup : (bundles ((s.on bundle.sidechain).filter (!·.lives table))).Nodup :=
    (hs.nodup _).sublist (bundles_filter_sublist _ _)
  have hmem : bundle ∈ bundles ((s.on bundle.sidechain).filter (!·.lives table)) ↔
      (s.find? bundle).any (!·.lives table) = true := by
    simp only [bundles, List.mem_map, List.mem_filter, Option.any_eq_true, hs.find?_eq_some_iff]
    exact exists_congr fun r => and_right_comm
  rw [hon]
  split_ifs with hany
  · exact List.count_eq_one_of_mem hnodup (hmem.mpr hany)
  · exact List.count_eq_zero.mpr (hmem.not.mpr hany)

theorem judges_dropExpired (hcanonical : s.Canonical)
    (hs : table.get? bundle.sidechain = some sidechain) (hr : s.find? bundle = some r) {age : Nat}
    (hage : r.blocksLeft.toNat = sidechain.period.toNat - age) :
    sidechain.Judges bundle r.workscore age (s.dropExpired table)
      ((s.expired table).map (·.bundle)) := by
  have hbundle : r.bundle = bundle := (hcanonical.find?_eq_some_iff.mp hr).2
  have hlives : r.lives table = true ↔
      ¬ (sidechain.period.toNat ≤ age ∧ r.workscore < sidechain.threshold) := by
    have hpos : 0 < r.blocksLeft ↔ ¬ sidechain.period.toNat ≤ age := by
      rw [UInt16.lt_iff_toNat_lt, hage, UInt16.toNat_zero]
      omega
    rw [Record.lives, hbundle, hs, Option.any_some, Bool.or_eq_true, decide_eq_true_eq,
      decide_eq_true_eq, hpos, not_and_or, UInt16.not_lt]
  have hrecord : r = ⟨bundle, r.workscore, UInt16.ofNat (sidechain.period.toNat - age)⟩ := by
    rw [← hage, UInt16.ofNat_toNat, ← hbundle]
  unfold Sidechain.Judges
  rw [hcanonical.find?_dropExpired, hr, ← List.count_eq_zero, count_expired hcanonical, hr,
    ← hrecord]
  by_cases hover : sidechain.period.toNat ≤ age ∧ r.workscore < sidechain.threshold
  · have hdead : r.lives table = false := by
      rw [← Bool.not_eq_true, hlives]
      exact not_not_intro hover
    rw [if_pos hover]
    simp [hdead]
  · rw [if_neg hover]
    simp [hlives.mpr hover]

end Expiry

section Changes

variable {age : Nat}

/-- The bundles that expire when a selection is committed. -/
def expiredBy (p : Params) (s : State) (updates : List Update) : List Bundle :=
  ((s.applyUpdates p.sidechains updates).tick.expired p.sidechains).map (·.bundle)

theorem judges_selection (hcanonical : s.Canonical)
    (hs : p.sidechain? bundle.sidechain = some sidechain)
    (hr : (s.applyUpdates p.sidechains updates).find? bundle = some r)
    (hage : r.blocksLeft.toNat = sidechain.period.toNat - age) :
    sidechain.Judges bundle r.workscore (age + 1) (s.change p (.selection updates))
      (s.expiredBy p updates) := by
  have hticked : (s.applyUpdates p.sidechains updates).tick.Canonical :=
    (hcanonical.applyUpdates p.sidechains updates).perform .tick
  have hafter : (s.applyUpdates p.sidechains updates).tick.find? bundle = some r.tick := by
    rw [find?_tick, hr, Option.map_some]
  have hone : r.tick.blocksLeft.toNat = sidechain.period.toNat - (age + 1) := by
    rw [r.toNat_blocksLeft_tick]
    omega
  rw [← r.workscore_tick]
  exact judges_dropExpired hticked hs hafter hone

/-- A record that is there keeps its window, whether it is scored or not. -/
theorem judges_of_tracked (hcanonical : s.Canonical)
    (hs : p.sidechain? bundle.sidechain = some sidechain) (hr : s.find? bundle = some r)
    (hage : r.blocksLeft.toNat = sidechain.period.toNat - age) (updates : List Update) :
    sidechain.Judges bundle
      (((lastScore? bundle updates).map (clampScore sidechain.period)).getD r.workscore) (age + 1)
      (s.change p (.selection updates)) (s.expiredBy p updates) := by
  have hscored := find?_applyUpdates hs s updates
  cases hlast : lastScore? bundle updates with
  | none =>
    rw [hlast, hr] at hscored
    exact judges_selection hcanonical hs hscored hage
  | some score =>
    rw [hlast, Option.map_some, Option.some_or, rescored, hr] at hscored
    exact judges_selection hcanonical hs hscored hage

theorem judges_of_new (hcanonical : s.Canonical)
    (hs : p.sidechain? bundle.sidechain = some sidechain) (hnone : s.find? bundle = none)
    {score : Int32} (hlast : lastScore? bundle updates = some score) :
    sidechain.Judges bundle (clampScore sidechain.period score) 1
      (s.change p (.selection updates)) (s.expiredBy p updates) := by
  have hscored := find?_applyUpdates hs s updates
  rw [hlast, Option.map_some, Option.some_or, rescored, hnone] at hscored
  have hfull : sidechain.period.toNat = sidechain.period.toNat - 0 := rfl
  exact judges_selection hcanonical hs hscored hfull

theorem find?_selection_of_unnamed (hcanonical : s.Canonical)
    (hs : p.sidechain? bundle.sidechain = some sidechain) (hnone : s.find? bundle = none)
    (hlast : lastScore? bundle updates = none) :
    (s.change p (.selection updates)).find? bundle = none := by
  have hticked : (s.applyUpdates p.sidechains updates).tick.Canonical :=
    (hcanonical.applyUpdates p.sidechains updates).perform .tick
  rw [change, hticked.find?_dropExpired, find?_tick, find?_applyUpdates hs, hlast, hnone]
  rfl

theorem find?_map_bundle (record : Bundle → Record) (hrecord : ∀ b, (record b).bundle = b)
    (l : List Bundle) :
    (l.map record).find? (·.bundle = bundle) =
      if bundle ∈ l then some (record bundle) else none := by
  induction l with
  | nil => rfl
  | cons b rest ih =>
    rw [List.map_cons, List.find?_cons, hrecord, ih]
    by_cases hb : b = bundle
    · simp [hb]
    · simp [hb, Ne.symm hb]

theorem find?_boundary (hs : p.sidechain? bundle.sidechain = some sidechain) (s : State)
    (height : UInt64) (proposals : List Bundle) :
    (s.boundary p height proposals).1.find? bundle =
      if bundle.sidechain ∈ (s.boundary p height proposals).2.cleared then
        if bundle ∈ (s.boundary p height proposals).2.seeded then
          some ⟨bundle, min p.initialScore sidechain.period, sidechain.period⟩
        else none
      else s.find? bundle := by
  rw [cleared_eq, boundary_seeded_eq, find?, find?]
  split_ifs with hi hmem
  · rw [on_boundary_of_elapsed hs hi, find?_map_bundle _ fun _ => rfl, if_pos]
    rw [List.mem_eraseDups, List.mem_filter] at hmem ⊢
    exact ⟨hmem.1, decide_eq_true rfl⟩
  · rw [on_boundary_of_elapsed hs hi, find?_map_bundle _ fun _ => rfl, if_neg]
    rw [List.mem_eraseDups, List.mem_filter] at hmem ⊢
    exact fun h => hmem ⟨h.1, decide_eq_true hi⟩
  · rw [on_boundary_of_not_elapsed hi]

theorem toNat_blocksLeft_of_created (hcanonical : s.Canonical)
    (hs : p.sidechain? bundle.sidechain = some sidechain) {x : Change}
    (hbegins : s.find? bundle = none ∨ x.Ends p bundle.sidechain)
    (hr : (s.change p x).find? bundle = some r) :
    r.blocksLeft.toNat = sidechain.period.toNat - settledBlocks [x] := by
  cases x with
  | selection updates =>
    have hnone := hbegins.resolve_right id
    cases hlast : lastScore? bundle updates with
    | none =>
      rw [find?_selection_of_unnamed hcanonical hs hnone hlast] at hr
      cases hr
    | some score => exact toNat_blocksLeft_of_judges (judges_of_new hcanonical hs hnone hlast) hr
  | boundary height proposals =>
    rw [change, find?_boundary hs, cleared_eq] at hr
    split_ifs at hr with hends hseeded
    · obtain rfl := Option.some.inj hr
      rfl
    · rw [hbegins.resolve_right hends] at hr
      cases hr
  | reset => cases hr

end Changes

end State

/-- While a record is tracked it has the blocks left of its period that no committed selection has
taken since it was created. -/
theorem Tenure.toNat_blocksLeft {p : Params} {bundle : Bundle} {before later : List Change}
    {created : Change} {sidechain : Sidechain} {r : Record}
    (h : Tenure p bundle before created later)
    (hs : p.sidechain? bundle.sidechain = some sidechain)
    (hr : (State.ofChanges p (before ++ created :: later)).find? bundle = some r) :
    r.blocksLeft.toNat = sidechain.period.toNat - settledBlocks (created :: later) := by
  induction later using List.reverseRecOn generalizing r with
  | nil =>
    rw [State.ofChanges_concat] at hr
    exact State.toNat_blocksLeft_of_created (State.canonical_ofChanges p before) hs h.begins hr
  | append_singleton later x ih =>
    have hends := h.unbroken x (List.mem_append_right later List.mem_cons_self)
    obtain ⟨old, hold⟩ :=
      Option.isSome_iff_exists.mp (h.tracked later (List.prefix_append later [x]))
    have hleft := ih h.of_concat hold
    rw [← List.cons_append, settledBlocks, List.countP_append]
    rw [← List.cons_append, ← List.append_assoc, State.ofChanges_concat] at hr
    cases x with
    | selection updates =>
      have hjudged := State.judges_of_tracked (State.canonical_ofChanges p _) hs hold hleft updates
      exact State.toNat_blocksLeft_of_judges hjudged hr
    | boundary height proposals =>
      have hopen : bundle.sidechain ∉ p.sidechains.elapsedAt height := hends
      rw [State.change, State.find?_boundary hs, State.cleared_eq, if_neg hopen, hold] at hr
      obtain rfl := Option.some.inj hr
      exact hleft
    | reset => exact absurd trivial hends

end BundleTracker
