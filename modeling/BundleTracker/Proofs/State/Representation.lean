import Mathlib.Tactic
import BundleTracker.Proofs.State.Operations
import BundleTracker.Proofs.State.Scores

/-!
# How a state represents its records

Whatever operations lead to a state, it has one entry for each sidechain with records, and one
record for each tracked bundle. So a state is empty if it has no records, a record is found by its
bundle, and two states are equal if they list the same records. An operation leaves the records that
it does not drop in their order, and those that it adds come behind them.
-/

namespace BundleTracker

namespace State

variable {s : State} {p : Params} {i : UInt8}

section Reading

@[simp] theorem toList_empty : State.empty.toList = [] := by
  simp [toList, State.empty]

theorem Canonical.eq_iff_toList_eq {t : State} (hs : s.Canonical) (ht : t.Canonical) :
    s = t ↔ s.toList = t.toList :=
  ⟨fun h => h ▸ rfl, eq_of_toList_eq hs ht⟩

theorem Canonical.isEmpty_iff (hs : s.Canonical) : s.isEmpty = true ↔ s.size = 0 := by
  have hempty : s.isEmpty = true ↔ s = .empty := by
    rw [isEmpty, Std.ExtTreeMap.isEmpty_iff]
    exact ⟨fun h => congrArg State.mk h, fun h => h ▸ rfl⟩
  rw [hempty, hs.eq_iff_toList_eq All.empty, toList_empty, size, List.length_eq_zero_iff]

theorem Canonical.find?_iff_mem_toList (hs : s.Canonical) {bundle : Bundle} {r : Record} :
    s.find? bundle = some r ↔ r ∈ s.toList ∧ r.bundle = bundle := by
  rw [hs.find?_eq_some_iff, mem_toList_iff]
  refine and_congr_left fun hbundle => ⟨fun hr => ⟨_, hr⟩, ?_⟩
  rintro ⟨i, hr⟩
  rwa [← hbundle, hs.filed hr]

end Reading

section Order

/-- What an operation leaves of the records of a sidechain, in their order. -/
def survivors (s : State) (i : UInt8) : Operation → List Record
  | .score sidechain digest score => (s.on i).map fun r =>
    if r.bundle = ⟨sidechain.index, digest⟩ then
      { r with workscore := clampScore sidechain.period score }
    else r
  | .tick => (s.on i).map Record.tick
  | .dropExpired table => (s.on i).filter (Record.lives table)
  | .clearElapsed table height => if i ∈ table.elapsedAt height then [] else s.on i
  | .seed _ _ _ => s.on i
  | .boundary p height _ => if i ∈ p.sidechains.elapsedAt height then [] else s.on i

theorem bundles_survivors_sublist (s : State) (i : UInt8) (operation : Operation) :
    (bundles (s.survivors i operation)).Sublist (bundles (s.on i)) := by
  cases operation with
  | score sidechain digest score =>
    have hsame : bundles (s.survivors i (.score sidechain digest score)) = bundles (s.on i) := by
      rw [survivors, bundles, List.map_map]
      refine List.map_congr_left fun r _ => ?_
      rw [Function.comp_apply]
      split_ifs <;> rfl
    rw [hsame]
  | tick => exact (bundles_map_tick _).symm ▸ List.Sublist.refl _
  | dropExpired table => exact bundles_filter_sublist _ _
  | clearElapsed table height =>
    rw [survivors]
    split_ifs
    · exact List.nil_sublist _
    · exact List.Sublist.refl _
  | seed p opened proposals => exact List.Sublist.refl _
  | boundary p height proposals =>
    rw [survivors]
    split_ifs
    · exact List.nil_sublist _
    · exact List.Sublist.refl _

theorem prefix_on_seed (s : State) (opened : List UInt8) (proposals : List Bundle) (i : UInt8) :
    s.on i <+: (s.seed p opened proposals).1.on i := by
  induction proposals generalizing s with
  | nil => exact List.prefix_rfl
  | cons bundle rest ih =>
    unfold seed
    split
    · refine List.IsPrefix.trans ?_ (ih _)
      rw [on_track]
      split_ifs
      · exact List.prefix_append _ _
      · exact List.prefix_rfl
    · exact ih s

theorem prefix_on_applyScore (hs : s.Canonical) (sidechain : Sidechain) (digest : Digest)
    (score : Int32) (i : UInt8) :
    s.survivors i (.score sidechain digest score) <+:
      (s.applyScore sidechain digest score).on i := by
  have hkept (hnone : (⟨sidechain.index, digest⟩ : Bundle) ∉ bundles (s.on i)) :
      s.survivors i (.score sidechain digest score) = s.on i := by
    rw [survivors, List.map_congr_left fun r hr => if_neg fun heq => hnone ?_, List.map_id']
    exact List.mem_map.mpr ⟨r, hr, heq⟩
  rw [on_applyScore]
  split_ifs with hi
  · subst hi
    by_cases hmem : (⟨sidechain.index, digest⟩ : Bundle) ∈ bundles (s.on sidechain.index)
    · rw [rescore_of_mem (hs.nodup _) hmem]
      exact List.prefix_rfl
    · rw [rescore_of_not_mem hmem, hkept hmem]
      exact List.prefix_append _ _
  · rw [hkept]
    intro hmem
    obtain ⟨r, hr, hbundle⟩ := List.mem_map.mp hmem
    exact hi ((congrArg Bundle.sidechain hbundle).symm.trans (hs.filed hr))

theorem prefix_on_perform (hs : s.Canonical) (operation : Operation) (i : UInt8) :
    s.survivors i operation <+: (s.perform operation).on i := by
  cases operation with
  | score sidechain digest score => exact prefix_on_applyScore hs sidechain digest score i
  | tick => exact (s.on_tick i).symm ▸ List.prefix_rfl
  | dropExpired table => exact (s.on_dropExpired table i).symm ▸ List.prefix_rfl
  | clearElapsed table height => exact (s.on_clear _ i).symm ▸ List.prefix_rfl
  | seed p opened proposals => exact s.prefix_on_seed opened proposals i
  | boundary p height proposals =>
    rw [survivors]
    split_ifs with hi
    · exact List.nil_prefix
    · exact (on_boundary_of_not_elapsed hi s proposals).symm ▸ List.prefix_rfl

/-- An operation leaves records in their order, and those that it adds are of other bundles and come
behind them. -/
theorem exists_on_perform_eq (hs : s.Canonical) (operation : Operation) (i : UInt8) :
    ∃ added, (s.perform operation).on i = s.survivors i operation ++ added ∧
      ∀ r ∈ added, r.bundle ∉ bundles (s.survivors i operation) := by
  obtain ⟨added, hadded⟩ := prefix_on_perform hs operation i
  have hnodup := (hs.perform operation).nodup i
  rw [← hadded, bundles_append] at hnodup
  refine ⟨added, hadded.symm, fun r hr hmem => ?_⟩
  exact (List.disjoint_of_nodup_append hnodup) hmem (List.mem_map_of_mem hr)

end Order

/-- The form of a state that any operations lead to. No sidechain has an empty entry, every record
is filed under its sidechain, and no digest occurs twice on a sidechain. So the state is empty
exactly if it has no records, a record is found by its bundle and is the only one of it, and two
such states are equal exactly if they list the same records, whatever operations led to them. Every
operation leaves the records that it does not drop in their order, and adds others behind them. -/
theorem canonical_form (operations : List Operation) :
    let s := after operations
    (∀ (i : UInt8) (records : List Record), s.tracked[i]? = some records →
      records ≠ [] ∧ (∀ r ∈ records, r.bundle.sidechain = i) ∧
        (records.map (·.bundle.digest)).Nodup) ∧
    (s.isEmpty = true ↔ s.size = 0) ∧
    (∀ bundle r, s.find? bundle = some r ↔ r ∈ s.toList ∧ r.bundle = bundle) ∧
    (∀ r ∈ s.toList, ∀ q ∈ s.toList, r.bundle = q.bundle → r = q) ∧
    (∀ others, s = after others ↔ s.toList = (after others).toList) ∧
    ∀ operation i, (bundles (s.survivors i operation)).Sublist (bundles (s.on i)) ∧
      ∃ added, (s.perform operation).on i = s.survivors i operation ++ added ∧
        ∀ r ∈ added, r.bundle ∉ bundles (s.survivors i operation) := by
  intro s
  have hs : s.Canonical := .after operations
  refine ⟨fun i records hrecords => ?_, hs.isEmpty_iff, fun _ _ => hs.find?_iff_mem_toList,
    fun r hr q hq heq => ?_, fun others => hs.eq_iff_toList_eq (.after others),
    fun operation i => ⟨bundles_survivors_sublist s i operation,
      exists_on_perform_eq hs operation i⟩⟩
  · obtain ⟨hne, hfiled, hnodup⟩ := hs hrecords
    refine ⟨hne, hfiled, hnodup.of_map.map_on fun r hr q hq hdigest => ?_⟩
    have hbundle : r.bundle = q.bundle :=
      Bundle.ext ((hfiled r hr).trans (hfiled q hq).symm) hdigest
    exact List.inj_on_of_nodup_map hnodup hr hq hbundle
  · have hfound := hs.find?_iff_mem_toList.mpr ⟨hr, heq⟩
    rw [hs.find?_iff_mem_toList.mpr ⟨hq, rfl⟩] at hfound
    exact (Option.some.inj hfound).symm

end State

end BundleTracker
