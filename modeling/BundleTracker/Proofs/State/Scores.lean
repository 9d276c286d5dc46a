import Mathlib.Tactic
import BundleTracker.Proofs.State.Changes

/-!
# Scores for several bundles

Scores for different bundles, given one after the other, replace the workscores of the records that
are there, in place, and append a record for each of the other bundles, in the order in which they
are scored. The updates of a selection are applied in this way, each bundle with its last score and
the bundles in their order, to the records of every registered sidechain.
-/

namespace BundleTracker

section Rescore

variable {bundle : Bundle} {workscore period : UInt16} {records : List Record}

theorem rescore_of_not_mem (h : bundle ∉ bundles records) :
    rescore bundle workscore period records = records ++ [⟨bundle, workscore, period⟩] := by
  induction records with
  | nil => rfl
  | cons r rest ih =>
    obtain ⟨hr, hrest⟩ := not_or.mp (List.mem_cons.not.mp h)
    rw [rescore, if_neg (Ne.symm hr), ih hrest]
    rfl

theorem rescore_of_mem (hnodup : (bundles records).Nodup) (h : bundle ∈ bundles records) :
    rescore bundle workscore period records =
      records.map fun r => if r.bundle = bundle then { r with workscore } else r := by
  induction records with
  | nil => simp at h
  | cons r rest ih =>
    obtain ⟨hr, hrest⟩ := List.nodup_cons.mp hnodup
    by_cases heq : r.bundle = bundle
    · have hother : ∀ q ∈ rest, (if q.bundle = bundle then { q with workscore } else q) = q := by
        intro q hq
        refine if_neg fun hsame => hr ?_
        exact List.mem_map.mpr ⟨q, hq, hsame.trans heq.symm⟩
      rw [rescore, if_pos heq, List.map_cons, if_pos heq, List.map_congr_left hother, List.map_id']
    · have hmem : bundle ∈ bundles rest :=
        (List.mem_cons.mp h).resolve_left fun hsame => heq hsame.symm
      rw [rescore, if_neg heq, List.map_cons, if_neg heq, ih hrest hmem]

theorem foldl_rescore {scored : List Bundle} (hscored : scored.Nodup) (workscore : Bundle → UInt16)
    (period : UInt16) (hnodup : (bundles records).Nodup) :
    scored.foldl (fun records b => rescore b (workscore b) period records) records =
      (records.map fun r =>
          if r.bundle ∈ scored then { r with workscore := workscore r.bundle } else r) ++
        (scored.filter (· ∉ bundles records)).map fun b => ⟨b, workscore b, period⟩ := by
  induction scored generalizing records with
  | nil => simp
  | cons bundle rest ih =>
    obtain ⟨hbundle, hrest⟩ := List.nodup_cons.mp hscored
    rw [List.foldl_cons, ih hrest (nodup_bundles_rescore hnodup)]
    by_cases hmem : bundle ∈ bundles records
    · have hsame :
          bundles (rescore bundle (workscore bundle) period records) = bundles records := by
        rw [bundles_rescore, if_pos hmem]
      rw [hsame, rescore_of_mem hnodup hmem, List.map_map, List.filter_cons_of_neg (by simpa)]
      congr 1
      refine List.map_congr_left fun r _ => ?_
      by_cases hr : r.bundle = bundle
      · simp [hr, hbundle]
      · simp [hr]
    · have hmore : bundles (rescore bundle (workscore bundle) period records) =
          bundles records ++ [bundle] := by
        rw [bundles_rescore, if_neg hmem]
      have hfilter : rest.filter (· ∉ bundles records ++ [bundle]) =
          rest.filter (· ∉ bundles records) := by
        refine List.filter_congr fun b hb => ?_
        have hne : b ≠ bundle := by
          rintro rfl
          exact hbundle hb
        simp [hne]
      have hmap : (records.map fun r => if r.bundle ∈ rest then
            { r with workscore := workscore r.bundle } else r) =
          records.map fun r => if r.bundle ∈ bundle :: rest then
            { r with workscore := workscore r.bundle } else r := by
        refine List.map_congr_left fun r hr => ?_
        have hne : r.bundle ≠ bundle := by
          rintro rfl
          exact hmem (List.mem_map_of_mem hr)
        simp [hne]
      rw [hmore, hfilter, rescore_of_not_mem hmem, List.map_append, hmap,
        List.filter_cons_of_pos (by simpa)]
      simp [hbundle]

end Rescore

theorem mem_lastScores {updates : List Update} {bundle : Bundle} :
    bundle ∈ lastScores updates ↔ (lastScore? bundle updates).isSome := by
  rw [← Std.ExtTreeMap.isSome_getElem?_iff_mem, getElem?_lastScores]

theorem nodup_keys_lastScores (updates : List Update) : (lastScores updates).keys.Nodup :=
  Std.ExtTreeMap.distinct_keys.imp fun hne heq => hne (Std.compare_eq_iff_eq.mpr heq)

theorem toList_lastScores (updates : List Update) :
    (lastScores updates).toList =
      (lastScores updates).keys.map fun b => (b, (lastScore? b updates).getD 0) := by
  rw [← Std.ExtTreeMap.map_fst_toList_eq_keys, List.map_map]
  refine (List.map_id' _).symm.trans (List.map_congr_left fun e he => ?_)
  have hscore := Std.ExtTreeMap.mem_toList_iff_getElem?_eq_some.mp he
  rw [getElem?_lastScores] at hscore
  simp [hscore]

namespace State

variable {s : State} {table : SidechainTable} {sidechain : Sidechain} {i : UInt8}

theorem on_applyUpdate (hs : table.get? i = some sidechain) (s : State) (bundle : Bundle)
    (score : Int32) :
    (s.applyUpdate table bundle score).on i =
      if bundle.sidechain = i then
        rescore bundle (clampScore sidechain.period score) sidechain.period (s.on i)
      else s.on i := by
  unfold applyUpdate
  by_cases hi : bundle.sidechain = i
  · subst hi
    rw [hs, if_pos rfl]
    simp only
    rw [on_applyScore, if_pos (table.index_eq hs)]
  · rw [if_neg hi]
    split
    · rename_i target htarget
      have hne : target.index ≠ i := by
        rw [table.index_eq htarget]
        exact hi
      rw [on_applyScore, if_neg hne]
    · rfl

theorem on_applyUpdate_of_unregistered (hi : table.get? i = none) (s : State) (bundle : Bundle)
    (score : Int32) : (s.applyUpdate table bundle score).on i = s.on i := by
  unfold applyUpdate
  split
  · rename_i target htarget
    have hne : target.index ≠ i := by
      rintro rfl
      rw [← table.index_eq htarget, hi] at htarget
      cases htarget
    rw [on_applyScore, if_neg hne]
  · rfl

theorem on_foldl_applyUpdate (hs : table.get? i = some sidechain) (s : State)
    (scored : List Bundle) (score : Bundle → Int32) :
    (scored.foldl (fun s b => s.applyUpdate table b (score b)) s).on i =
      (scored.filter (·.sidechain = i)).foldl
        (fun records b =>
          rescore b (clampScore sidechain.period (score b)) sidechain.period records)
        (s.on i) := by
  induction scored generalizing s with
  | nil => rfl
  | cons bundle rest ih =>
    rw [List.foldl_cons, ih, on_applyUpdate hs, List.filter_cons]
    by_cases hi : bundle.sidechain = i <;> simp [hi]

theorem applyUpdates_eq (s : State) (table : SidechainTable) (updates : List Update) :
    s.applyUpdates table updates = (lastScores updates).keys.foldl
      (fun s b => s.applyUpdate table b ((lastScore? b updates).getD 0)) s := by
  rw [applyUpdates, Std.ExtTreeMap.foldl_eq_foldl_toList, toList_lastScores, List.foldl_map]

theorem on_applyUpdates_of_unregistered (hi : table.get? i = none) (s : State)
    (updates : List Update) : (s.applyUpdates table updates).on i = s.on i := by
  rw [applyUpdates_eq]
  generalize (lastScores updates).keys = scored
  induction scored generalizing s with
  | nil => rfl
  | cons bundle rest ih => rw [List.foldl_cons, ih, on_applyUpdate_of_unregistered hi]

/-- The records of a registered sidechain after updates: those that are there take the last scores,
and the other bundles that are named follow in their order. -/
theorem on_applyUpdates (hs : table.get? i = some sidechain) (hcanonical : s.Canonical)
    (updates : List Update) :
    (s.applyUpdates table updates).on i =
      ((s.on i).map fun r => { r with
          workscore := ((lastScore? r.bundle updates).map (clampScore sidechain.period)).getD
            r.workscore }) ++
        (((lastScores updates).keys.filter (·.sidechain = i)).filter (· ∉ bundles (s.on i))).map
          fun b => ⟨b, clampScore sidechain.period ((lastScore? b updates).getD 0),
            sidechain.period⟩ := by
  rw [applyUpdates_eq, on_foldl_applyUpdate hs,
    foldl_rescore ((nodup_keys_lastScores updates).filter _)
      (fun b => clampScore sidechain.period ((lastScore? b updates).getD 0)) _ (hcanonical.nodup i)]
  congr 1
  refine List.map_congr_left fun r hr => ?_
  have hfiled := hcanonical.filed hr
  cases hscore : lastScore? r.bundle updates with
  | none => simp [mem_lastScores, hscore]
  | some score => simp [mem_lastScores, hscore, hfiled]

end State

end BundleTracker
