import Mathlib.Tactic
import BundleTracker.Proofs.State.Canonical

/-!
# The records of one sidechain after an operation

What an operation does to a state is read off the records of a single sidechain: a score
touches the sidechain it is for, a block touches all of them alike, and the end of a period
starts the elapsed ones afresh and leaves the others alone.
-/

namespace BundleTracker

theorem SidechainTable.mem_elapsedAt {table : SidechainTable} {i : UInt8} {height : UInt64} :
    i ∈ table.elapsedAt height ↔
      ∃ sidechain, table.get? i = some sidechain ∧ sidechain.elapsesAt height = true := by
  simp only [elapsedAt, List.mem_map, List.mem_filter, mem_toList]
  constructor
  · rintro ⟨sidechain, ⟨hget, helapses⟩, rfl⟩
    exact ⟨sidechain, hget, helapses⟩
  · rintro ⟨sidechain, hget, helapses⟩
    obtain rfl := table.index_eq hget
    exact ⟨sidechain, ⟨hget, helapses⟩, rfl⟩

theorem find?_rescore (bundle other : Bundle) (workscore period : UInt16)
    (records : List Record) :
    (rescore bundle workscore period records).find? (·.bundle = other) =
      if bundle = other then
        some ⟨bundle, workscore,
          ((records.find? (·.bundle = bundle)).map (·.blocksLeft)).getD period⟩
      else records.find? (·.bundle = other) := by
  induction records with
  | nil => by_cases h : bundle = other <;> simp [rescore, h]
  | cons r rest ih =>
    unfold rescore
    by_cases hr : r.bundle = bundle
    · rw [if_pos hr]
      by_cases h : bundle = other <;> simp [hr, h]
    · rw [if_neg hr]
      by_cases h : r.bundle = other
      · have hne : bundle ≠ other := fun e => hr (h.trans e.symm)
        simp [h, hne]
      · simp [h, hr, ih]

namespace State

variable {s : State} {p : Params} {i : UInt8}

@[simp] theorem on_empty (i : UInt8) : State.empty.on i = [] := by
  simp [State.on, State.empty]

theorem on_put (s : State) (i j : UInt8) (records : List Record) :
    State.on ⟨s.tracked.insert i records⟩ j = if i = j then records else s.on j := by
  rw [on_eq, on_eq, Std.ExtTreeMap.getElem?_insert]
  simp only [Std.LawfulEqCmp.compare_eq_iff_eq]
  split_ifs <;> rfl

theorem on_applyScore (s : State) (sidechain : Sidechain) (digest : Digest) (score : Int32)
    (i : UInt8) :
    (s.applyScore sidechain digest score).on i =
      if sidechain.index = i then
        rescore ⟨i, digest⟩ (clampScore sidechain.period score) sidechain.period (s.on i)
      else s.on i := by
  rw [applyScore, on_put]
  split_ifs with h
  · rw [h]
  · rfl

@[simp] theorem on_tick (s : State) (i : UInt8) : s.tick.on i = (s.on i).map Record.tick := by
  rw [on_eq, on_eq, tick, Std.ExtTreeMap.getElem?_map]
  cases s.tracked[i]? <;> rfl

@[simp] theorem on_dropExpired (s : State) (table : SidechainTable) (i : UInt8) :
    (s.dropExpired table).on i = (s.on i).filter (Record.lives table) := by
  rw [on_eq, on_eq, dropExpired, Std.ExtTreeMap.getElem?_filterMap']
  cases s.tracked[i]? with
  | none => rfl
  | some records =>
    rw [Option.bind_some, Option.getD_some]
    split
    · rename_i hnil
      rw [hnil]
      rfl
    · rfl

theorem on_erase (s : State) (i j : UInt8) :
    State.on ⟨s.tracked.erase i⟩ j = if i = j then [] else s.on j := by
  rw [on_eq, on_eq, Std.ExtTreeMap.getElem?_erase]
  simp only [Std.LawfulEqCmp.compare_eq_iff_eq]
  split_ifs <;> rfl

theorem on_clear (s : State) (sidechains : List UInt8) (i : UInt8) :
    (s.clear sidechains).on i = if i ∈ sidechains then [] else s.on i := by
  rw [clear]
  induction sidechains generalizing s with
  | nil => rfl
  | cons j rest ih =>
    refine (ih ⟨s.tracked.erase j⟩).trans ?_
    rw [on_erase]
    by_cases hrest : i ∈ rest
    · simp [hrest]
    · by_cases hij : j = i
      · simp [hij]
      · simp [hrest, hij, Ne.symm hij]

theorem on_track (s : State) (sidechain : Sidechain) (bundle : Bundle) (i : UInt8) :
    (s.track p sidechain bundle).on i =
      if bundle.sidechain = i then
        s.on i ++ [⟨bundle, min p.initialScore sidechain.period, sidechain.period⟩]
      else s.on i := by
  rw [track, on_put]
  split_ifs with h
  · rw [h]
  · rfl

theorem on_seed_of_not_mem {opened : List UInt8} (hi : i ∉ opened) (s : State)
    (proposals : List Bundle) : (s.seed p opened proposals).1.on i = s.on i := by
  induction proposals generalizing s with
  | nil => rfl
  | cons bundle rest ih =>
    unfold seed
    split
    · rename_i sidechain hadmits
      obtain ⟨-, hopened, -⟩ := admits_eq_some_iff.mp hadmits
      have hne : bundle.sidechain ≠ i := by
        rintro rfl
        exact hi hopened
      refine (ih _).trans ?_
      rw [on_track, if_neg hne]
    · exact ih s

/-- A record after seeding was there before, or starts with the initial workscore and a full
period for a bundle that is proposed. -/
theorem mem_on_seed {opened : List UInt8} {proposals : List Bundle} {r : Record}
    (h : r ∈ (s.seed p opened proposals).1.on i) :
    r ∈ s.on i ∨ ∃ sidechain, p.sidechain? i = some sidechain ∧ r.bundle ∈ proposals ∧
      r = ⟨r.bundle, min p.initialScore sidechain.period, sidechain.period⟩ := by
  induction proposals generalizing s with
  | nil => exact Or.inl h
  | cons bundle rest ih =>
    unfold seed at h
    split at h
    · rename_i sidechain hadmits
      obtain ⟨hsidechain, -, -⟩ := admits_eq_some_iff.mp hadmits
      rcases ih h with htrack | ⟨other, hother, hproposed, hr⟩
      · rw [on_track] at htrack
        split_ifs at htrack with hi
        · rcases List.mem_append.mp htrack with hold | hnew
          · exact Or.inl hold
          · obtain rfl := List.mem_singleton.mp hnew
            subst hi
            exact Or.inr ⟨sidechain, hsidechain, List.mem_cons_self, rfl⟩
        · exact Or.inl htrack
      · exact Or.inr ⟨other, hother, List.mem_cons_of_mem bundle hproposed, hr⟩
    · rcases ih h with hold | ⟨other, hother, hproposed, hr⟩
      · exact Or.inl hold
      · exact Or.inr ⟨other, hother, List.mem_cons_of_mem bundle hproposed, hr⟩

theorem seed_of_closed (s : State) (p : Params) (proposals : List Bundle) :
    s.seed p [] proposals = (s, []) := by
  induction proposals with
  | nil => rfl
  | cons bundle rest ih =>
    have hadmits : s.admits p [] bundle = none := by
      unfold admits
      split <;> simp
    rw [seed, hadmits]
    exact ih

/-- The sidechains whose periods end are cleared and seeded, also if there are none. -/
theorem boundary_eq_seed (s : State) (p : Params) (height : UInt64) (proposals : List Bundle) :
    let elapsed := p.sidechains.elapsedAt height
    s.boundary p height proposals =
      (((s.clear elapsed).seed p elapsed proposals).1,
        ⟨elapsed, ((s.clear elapsed).seed p elapsed proposals).2⟩) := by
  intro elapsed
  unfold boundary
  split
  · rename_i hnone
    have hclosed : elapsed = [] := hnone
    rw [hclosed, seed_of_closed]
    rfl
  · rfl

theorem boundary_eq (s : State) (p : Params) (height : UInt64) (proposals : List Bundle) :
    (s.boundary p height proposals).1 =
      ((s.clear (p.sidechains.elapsedAt height)).seed p (p.sidechains.elapsedAt height)
        proposals).1 :=
  congrArg Prod.fst (s.boundary_eq_seed p height proposals)

theorem on_boundary_of_not_elapsed {height : UInt64} (hi : i ∉ p.sidechains.elapsedAt height)
    (s : State) (proposals : List Bundle) :
    (s.boundary p height proposals).1.on i = s.on i := by
  rw [boundary_eq, on_seed_of_not_mem hi, on_clear, if_neg hi]

theorem mem_on_boundary_of_elapsed {height : UInt64} (hi : i ∈ p.sidechains.elapsedAt height)
    {proposals : List Bundle} {r : Record} (h : r ∈ (s.boundary p height proposals).1.on i) :
    ∃ sidechain, p.sidechain? i = some sidechain ∧ r.bundle ∈ proposals ∧
      r = ⟨r.bundle, min p.initialScore sidechain.period, sidechain.period⟩ := by
  rw [boundary_eq] at h
  rcases mem_on_seed h with hold | hnew
  · rw [on_clear, if_pos hi] at hold
    cases hold
  · exact hnew

namespace Canonical

theorem filed (hs : s.Canonical) {r : Record} (hr : r ∈ s.on i) : r.bundle.sidechain = i := by
  rcases All.on_cases hs i with hnil | hentry
  · rw [hnil] at hr
    cases hr
  · exact hentry.filed r hr

theorem nodup (hs : s.Canonical) (i : UInt8) : (bundles (s.on i)).Nodup := by
  rcases All.on_cases hs i with hnil | hentry
  · rw [hnil]
    exact List.nodup_nil
  · exact hentry.nodup

theorem find?_eq_some_iff (hs : s.Canonical) {bundle : Bundle} {r : Record} :
    s.find? bundle = some r ↔ r ∈ s.on bundle.sidechain ∧ r.bundle = bundle := by
  constructor
  · intro h
    exact ⟨List.mem_of_find?_eq_some h, by simpa using List.find?_some h⟩
  · rintro ⟨hr, hbundle⟩
    obtain ⟨found, hfound⟩ : ∃ found, s.find? bundle = some found := by
      rw [← Option.isSome_iff_exists, State.find?, List.find?_isSome]
      exact ⟨r, hr, by simpa using hbundle⟩
    have hmem : found ∈ s.on bundle.sidechain := List.mem_of_find?_eq_some hfound
    have hsame : found.bundle = bundle := by simpa using List.find?_some hfound
    rw [hfound, List.inj_on_of_nodup_map (hs.nodup _) hmem hr (hsame.trans hbundle.symm)]

theorem dropExpired (hs : s.Canonical) (table : SidechainTable) :
    (s.dropExpired table).Canonical :=
  hs.perform (.dropExpired table)

/-- Of the records in a canonical state exactly those that stay are there after the expired ones
went. -/
theorem find?_dropExpired (hs : s.Canonical) (table : SidechainTable) (bundle : Bundle) :
    (s.dropExpired table).find? bundle = (s.find? bundle).filter (Record.lives table) := by
  ext r
  rw [(hs.dropExpired table).find?_eq_some_iff, on_dropExpired, List.mem_filter,
    Option.filter_eq_some_iff, hs.find?_eq_some_iff, and_right_comm]

end Canonical

end State

end BundleTracker
