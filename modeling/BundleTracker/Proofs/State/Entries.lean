import Mathlib.Tactic
import BundleTracker.Candidate.Basic

/-!
# The records of each sidechain

A property of the records of one sidechain holds throughout a state if it holds of
every entry. Each operation rewrites entries on its own, so what it has to keep is
said once for an entry, and invariants of states follow from facts about lists.
-/

namespace BundleTracker

def bundles (records : List Record) : List Bundle := records.map (·.bundle)

@[simp] theorem bundles_nil : bundles [] = [] := rfl

@[simp] theorem bundles_cons (r : Record) (rest : List Record) :
    bundles (r :: rest) = r.bundle :: bundles rest := rfl

@[simp] theorem bundles_append (records more : List Record) :
    bundles (records ++ more) = bundles records ++ bundles more := List.map_append

section Rescore

variable {bundle : Bundle} {workscore period : UInt16}

theorem rescore_ne_nil (records : List Record) : rescore bundle workscore period records ≠ [] := by
  cases records with
  | nil => simp [rescore]
  | cons r rest =>
    unfold rescore
    split <;> simp

theorem bundles_rescore (records : List Record) :
    bundles (rescore bundle workscore period records) =
      if bundle ∈ bundles records then bundles records else bundles records ++ [bundle] := by
  induction records with
  | nil => rfl
  | cons r rest ih =>
    by_cases h : r.bundle = bundle
    · simp [rescore, h]
    · have h' : bundle ≠ r.bundle := fun e => h e.symm
      rw [rescore, if_neg h, bundles_cons, bundles_cons, ih]
      by_cases hmem : bundle ∈ bundles rest <;> simp [hmem, h']

theorem mem_rescore {records : List Record} {r : Record}
    (h : r ∈ rescore bundle workscore period records) :
    r ∈ records ∨ r = ⟨bundle, workscore, period⟩ ∨
      ∃ old ∈ records, old.bundle = bundle ∧ r = { old with workscore } := by
  induction records with
  | nil =>
    right; left
    simpa [rescore] using h
  | cons q rest ih =>
    unfold rescore at h
    split at h
    · rename_i hq
      rcases List.mem_cons.mp h with rfl | h
      · exact Or.inr (Or.inr ⟨q, by simp, hq, rfl⟩)
      · exact Or.inl (List.mem_cons_of_mem q h)
    · rcases List.mem_cons.mp h with rfl | h
      · exact Or.inl List.mem_cons_self
      · rcases ih h with h | h | ⟨old, hold, h⟩
        · exact Or.inl (List.mem_cons_of_mem q h)
        · exact Or.inr (Or.inl h)
        · exact Or.inr (Or.inr ⟨old, List.mem_cons_of_mem q hold, h⟩)

end Rescore

@[simp] theorem Record.bundle_tick (r : Record) : r.tick.bundle = r.bundle := by
  unfold Record.tick
  split <;> rfl

@[simp] theorem Record.workscore_tick (r : Record) : r.tick.workscore = r.workscore := by
  unfold Record.tick
  split <;> rfl

theorem Record.toNat_blocksLeft_tick (r : Record) :
    r.tick.blocksLeft.toNat = r.blocksLeft.toNat - 1 := by
  unfold Record.tick
  split
  · rename_i h
    have h1 : (1 : UInt16) ≤ r.blocksLeft :=
      UInt16.le_iff_toNat_le.mpr (UInt16.lt_iff_toNat_lt.mp h)
    exact UInt16.toNat_sub_of_le _ _ h1
  · rename_i h
    have hzero : r.blocksLeft.toNat = 0 :=
      Nat.eq_zero_of_not_pos fun hpos => h (UInt16.lt_iff_toNat_lt.mpr hpos)
    rw [hzero]

theorem Record.blocksLeft_tick_le (r : Record) : r.tick.blocksLeft ≤ r.blocksLeft := by
  rw [UInt16.le_iff_toNat_le, r.toNat_blocksLeft_tick]
  exact Nat.sub_le _ _

@[simp] theorem bundles_map_tick (records : List Record) :
    bundles (records.map Record.tick) = bundles records := by
  simp [bundles, Function.comp_def]

theorem bundles_filter_sublist (keep : Record → Bool) (records : List Record) :
    (bundles (records.filter keep)).Sublist (bundles records) :=
  List.filter_sublist.map _

namespace State

variable {P : UInt8 → List Record → Prop} {s : State}

def All (P : UInt8 → List Record → Prop) (s : State) : Prop :=
  ∀ ⦃i : UInt8⦄ ⦃records : List Record⦄, s.tracked[i]? = some records → P i records

theorem on_eq (s : State) (i : UInt8) : s.on i = s.tracked[i]?.getD [] :=
  Std.ExtTreeMap.getD_eq_getD_getElem?

theorem on_of_getElem? {i : UInt8} {records : List Record} (h : s.tracked[i]? = some records) :
    s.on i = records := by
  rw [on_eq, h, Option.getD_some]

theorem mem_toList_iff {r : Record} : r ∈ s.toList ↔ ∃ i, r ∈ s.on i := by
  simp only [toList, List.mem_flatMap, Prod.exists, on_eq,
    Std.ExtTreeMap.mem_toList_iff_getElem?_eq_some]
  constructor
  · rintro ⟨i, records, hi, hr⟩
    exact ⟨i, by rwa [hi]⟩
  · rintro ⟨i, hr⟩
    cases hi : s.tracked[i]? with
    | none => simp [hi] at hr
    | some records => exact ⟨i, records, hi, by simpa [hi] using hr⟩

theorem find?_eq_none_iff {bundle : Bundle} :
    s.find? bundle = none ↔ bundle ∉ bundles (s.on bundle.sidechain) := by
  simp [find?, bundles]

/-- A bundle is tracked afresh if its sidechain is registered and open and it is not tracked yet. -/
theorem admits_eq_some_iff {p : Params} {opened : List UInt8} {bundle : Bundle}
    {sidechain : Sidechain} :
    s.admits p opened bundle = some sidechain ↔
      p.sidechain? bundle.sidechain = some sidechain ∧ bundle.sidechain ∈ opened ∧
        bundle ∉ bundles (s.on bundle.sidechain) := by
  rw [← find?_eq_none_iff]
  unfold admits
  split
  · rename_i other hother
    rw [hother]
    split_ifs with h
    · simp [h]
    · simp [h]
  · rename_i hnone
    simp [hnone]

namespace All

theorem on_cases (h : s.All P) (i : UInt8) : s.on i = [] ∨ P i (s.on i) := by
  cases hi : s.tracked[i]? with
  | none => exact Or.inl (by rw [on_eq, hi, Option.getD_none])
  | some records => exact Or.inr (by rw [on_of_getElem? hi]; exact h hi)

theorem empty : State.empty.All P := by
  intro i records hi
  simp [State.empty] at hi

theorem put (h : s.All P) {i : UInt8} {records : List Record} (hP : P i records) :
    State.All P ⟨s.tracked.insert i records⟩ := by
  intro j others hj
  rw [Std.ExtTreeMap.getElem?_insert] at hj
  split at hj
  · rename_i hij
    obtain rfl := Std.LawfulEqCmp.eq_of_compare hij
    obtain rfl := Option.some.inj hj
    exact hP
  · exact h hj

theorem applyScore (h : s.All P) {sidechain : Sidechain} {digest : Digest} {score : Int32}
    (hP : ∀ records, records = [] ∨ P sidechain.index records →
      P sidechain.index (rescore ⟨sidechain.index, digest⟩ (clampScore sidechain.period score)
        sidechain.period records)) :
    (s.applyScore sidechain digest score).All P :=
  h.put (hP _ (h.on_cases _))

theorem tick (h : s.All P) (hP : ∀ i records, P i records → P i (records.map Record.tick)) :
    s.tick.All P := by
  intro i records hi
  rw [State.tick, Std.ExtTreeMap.getElem?_map, Option.map_eq_some_iff] at hi
  obtain ⟨old, hold, rfl⟩ := hi
  exact hP i old (h hold)

theorem dropExpired (h : s.All P) {table : SidechainTable}
    (hP : ∀ i records, P i records → records.filter (Record.lives table) ≠ [] →
      P i (records.filter (Record.lives table))) : (s.dropExpired table).All P := by
  intro i records hi
  rw [State.dropExpired, Std.ExtTreeMap.getElem?_filterMap', Option.bind_eq_some_iff] at hi
  obtain ⟨old, hold, hkept⟩ := hi
  split at hkept
  · cases hkept
  · rename_i hne
    obtain rfl := Option.some.inj hkept
    exact hP i old (h hold) hne

theorem clear (h : s.All P) (sidechains : List UInt8) : (s.clear sidechains).All P := by
  rw [State.clear]
  induction sidechains generalizing s with
  | nil => exact h
  | cons i rest ih =>
    have herase : State.All P ⟨s.tracked.erase i⟩ := by
      intro j records hj
      rw [Std.ExtTreeMap.getElem?_erase] at hj
      split at hj
      · cases hj
      · exact h hj
    exact ih herase

theorem seed {p : Params} {opened : List UInt8} (h : s.All P)
    (hP : ∀ (bundle : Bundle) (sidechain : Sidechain) (records : List Record),
      p.sidechain? bundle.sidechain = some sidechain → bundle ∉ bundles records →
      records = [] ∨ P bundle.sidechain records →
      P bundle.sidechain
        (records ++ [⟨bundle, min p.initialScore sidechain.period, sidechain.period⟩]))
    (proposals : List Bundle) : (s.seed p opened proposals).1.All P := by
  induction proposals generalizing s with
  | nil => exact h
  | cons bundle rest ih =>
    unfold State.seed
    split
    · rename_i sidechain hadmits
      obtain ⟨hsidechain, -, hnew⟩ := admits_eq_some_iff.mp hadmits
      exact ih (h.put (hP bundle sidechain _ hsidechain hnew (h.on_cases _)))
    · exact ih h

end All

theorem applyUpdates_induction {Q : State → Prop} {table : SidechainTable} (h : Q s)
    (hstep : ∀ (s : State) (sidechain : Sidechain) (digest : Digest) (score : Int32),
      table.get? sidechain.index = some sidechain → Q s → Q (s.applyScore sidechain digest score))
    (updates : List Update) : Q (s.applyUpdates table updates) := by
  rw [applyUpdates, Std.ExtTreeMap.foldl_eq_foldl_toList]
  generalize (lastScores updates).toList = scores
  induction scores generalizing s with
  | nil => exact h
  | cons entry rest ih =>
    apply ih
    show Q (s.applyUpdate table entry.1 entry.2)
    unfold applyUpdate
    split
    · rename_i sidechain hsidechain
      have hindex := table.index_eq hsidechain
      exact hstep s sidechain _ _ (by rw [hindex]; exact hsidechain) h
    · exact h

end State

end BundleTracker
