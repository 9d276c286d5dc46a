import Mathlib.Tactic
import BundleTracker.Params.Table

/-!
# Tables made from lists

A list of sidechains makes a table exactly if every entry is valid and no index is repeated. The
table then holds these entries and no others, so their order does not matter, and the list of the
table in ascending order makes the same table again. Otherwise the first position at which an entry
is refused decides about the error.
-/

namespace BundleTracker

namespace SidechainTable

/-- Why an entry is refused behind the `earlier` ones. Of several reasons the first counts. -/
inductive Refuses (earlier : List Sidechain) (s : Sidechain) : SidechainError → Prop
  | emptyPeriod : s.period = 0 → Refuses earlier s (.emptyPeriod s.index)
  | zeroThreshold : s.period ≠ 0 → s.threshold = 0 → Refuses earlier s (.zeroThreshold s.index)
  | unreachableThreshold : s.period ≠ 0 → s.period < s.threshold →
      Refuses earlier s (.unreachableThreshold s.index s.threshold s.period)
  | duplicate : s.Valid → s.index ∈ earlier.map (·.index) →
      Refuses earlier s (.duplicate s.index)

/-- Every entry of a list is valid, and no index is repeated. -/
structure Regular (sidechains : List Sidechain) : Prop where
  valid : ∀ s ∈ sidechains, s.Valid
  nodup : (sidechains.map (·.index)).Nodup

/-- A table with the entries of a list, each under its index. -/
def Holds (t : SidechainTable) (sidechains : List Sidechain) : Prop :=
  ∀ i s, t.get? i = some s ↔ s ∈ sidechains ∧ s.index = i

variable {t u : SidechainTable} {s : Sidechain} {earlier sidechains others : List Sidechain}
  {e e' : SidechainError}

section Listing

theorem map_index_toList (table : SidechainTable) :
    table.toList.map (·.index) = table.entries.keys := by
  rw [toList, List.map_map, ← Std.ExtTreeMap.map_fst_toList_eq_keys]
  refine List.map_congr_left fun e he => ?_
  exact table.index_eq (Std.ExtTreeMap.mem_toList_iff_getElem?_eq_some.mp he)

theorem ascending_toList (table : SidechainTable) :
    (table.toList.map (·.index)).Pairwise (· < ·) := by
  rw [map_index_toList]
  exact Std.ExtTreeMap.ordered_keys.imp fun h => Std.compare_eq_lt.mp h

theorem regular_toList (t : SidechainTable) : Regular t.toList where
  valid _ hs := t.valid (mem_toList.mp hs)
  nodup := t.ascending_toList.imp UInt8.ne_of_lt

theorem holds_toList (t : SidechainTable) : t.Holds t.toList := by
  intro i s
  rw [mem_toList]
  constructor
  · intro hget
    obtain rfl := t.index_eq hget
    exact ⟨hget, rfl⟩
  · rintro ⟨hget, rfl⟩
    exact hget

end Listing

namespace Holds

theorem empty : SidechainTable.empty.Holds [] := by
  intro i s
  simp

theorem contains_iff (h : t.Holds sidechains) (i : UInt8) :
    t.contains i = true ↔ i ∈ sidechains.map (·.index) := by
  rw [contains, Option.isSome_iff_exists, List.mem_map]
  exact exists_congr fun s => h i s

theorem insert (h : t.Holds earlier) (hs : s.Valid) (hnew : s.index ∉ earlier.map (·.index)) :
    (t.insert s hs).Holds (earlier ++ [s]) := by
  intro i s'
  rw [get?_insert, List.mem_append, List.mem_singleton]
  split_ifs with hi
  · rw [Option.some.injEq]
    constructor
    · rintro rfl
      exact ⟨.inr rfl, hi⟩
    · rintro ⟨hmem | rfl, hi'⟩
      · exact absurd (List.mem_map.mpr ⟨s', hmem, hi'.trans hi.symm⟩) hnew
      · rfl
  · rw [h i s', or_and_right, or_iff_left]
    rintro ⟨rfl, hi'⟩
    exact hi hi'

theorem unique (ht : t.Holds sidechains) (hu : u.Holds sidechains) : t = u := by
  ext1 i
  exact Option.ext fun s => (ht i s).trans (hu i s).symm

theorem of_perm (h : t.Holds sidechains) (hperm : others.Perm sidechains) : t.Holds others := by
  intro i s
  rw [h i s, hperm.mem_iff]

theorem perm_toList (h : t.Holds sidechains) (hregular : Regular sidechains) :
    t.toList.Perm sidechains := by
  refine (List.perm_ext_iff_of_nodup t.regular_toList.nodup.of_map hregular.nodup.of_map).mpr ?_
  intro s
  rw [mem_toList, h]
  exact and_iff_left rfl

end Holds

section Refusals

theorem refuses_of_check (h : s.check = .error e) : Refuses earlier s e := by
  unfold Sidechain.check at h
  split_ifs at h with hperiod hthreshold hreach
  · obtain rfl := Except.error.inj h
    exact .emptyPeriod hperiod
  · obtain rfl := Except.error.inj h
    exact .zeroThreshold hperiod hthreshold
  · obtain rfl := Except.error.inj h
    exact .unreachableThreshold hperiod hreach

theorem refuses_iff :
    Refuses earlier s e ↔ s.check = .error e ∨
      s.check = .ok () ∧ s.index ∈ earlier.map (·.index) ∧ e = .duplicate s.index := by
  constructor
  · intro h
    cases h with
    | emptyPeriod hperiod => exact .inl (if_pos hperiod)
    | zeroThreshold hperiod hthreshold =>
      exact .inl (by rw [Sidechain.check, if_neg hperiod, if_pos hthreshold])
    | unreachableThreshold hperiod hreach =>
      have hthreshold : s.threshold ≠ 0 := by
        intro hzero
        rw [hzero] at hreach
        exact UInt16.not_lt_zero hreach
      exact .inl (by rw [Sidechain.check, if_neg hperiod, if_neg hthreshold, if_pos hreach])
    | duplicate hs hmem => exact .inr ⟨Sidechain.check_eq_ok_iff.mpr hs, hmem, rfl⟩
  · rintro (hcheck | ⟨hcheck, hmem, rfl⟩)
    · exact refuses_of_check hcheck
    · exact .duplicate (Sidechain.check_eq_ok_iff.mp hcheck) hmem

theorem Refuses.unique (h : Refuses earlier s e) (h' : Refuses earlier s e') : e = e' := by
  rw [refuses_iff] at h h'
  rcases h with hcheck | ⟨hcheck, -, rfl⟩
  · rw [hcheck] at h'
    rcases h' with hcheck' | ⟨hcheck', -⟩
    · exact Except.error.inj hcheck'
    · cases hcheck'
  · rw [hcheck] at h'
    rcases h' with hcheck' | ⟨-, -, rfl⟩
    · cases hcheck'
    · rfl

/-- No entry of a regular list is refused behind those before it. -/
theorem Regular.not_refuses {i : Nat} (h : Regular sidechains) (hi : sidechains[i]? = some s) :
    ¬ Refuses (sidechains.take i) s e := by
  have hcheck : s.check = .ok () :=
    Sidechain.check_eq_ok_iff.mpr (h.valid s (List.mem_of_getElem? hi))
  rw [refuses_iff, hcheck]
  rintro (hcheck' | ⟨-, hmem, -⟩)
  · cases hcheck'
  · obtain ⟨hlt, rfl⟩ := List.getElem?_eq_some_iff.mp hi
    have hnodup : ((sidechains.take (i + 1)).map (·.index)).Nodup :=
      h.nodup.sublist ((List.take_sublist (i + 1) sidechains).map _)
    rw [List.take_add_one, List.getElem?_eq_getElem hlt, Option.toList_some, List.map_append,
      List.nodup_append] at hnodup
    exact hnodup.2.2 _ hmem _ (List.mem_singleton.mpr rfl) rfl

end Refusals

section Making

theorem add_cases (h : t.Holds earlier) (s : Sidechain) :
    (∃ e, t.add s = .error e ∧ Refuses earlier s e) ∨
      ∃ u, t.add s = .ok u ∧ s.Valid ∧ s.index ∉ earlier.map (·.index) ∧
        u.Holds (earlier ++ [s]) := by
  unfold add
  split
  · rename_i e hcheck
    exact .inl ⟨e, rfl, refuses_of_check hcheck⟩
  · rename_i hcheck
    have hs : s.Valid := Sidechain.check_eq_ok_iff.mp hcheck
    split_ifs with htaken
    · exact .inl ⟨_, rfl, .duplicate hs ((h.contains_iff s.index).mp htaken)⟩
    · have hnew : s.index ∉ earlier.map (·.index) := fun hmem =>
        htaken ((h.contains_iff s.index).mpr hmem)
      exact .inr ⟨_, rfl, hs, hnew, h.insert hs hnew⟩

theorem ofList_concat (sidechains : List Sidechain) (s : Sidechain) :
    ofList (sidechains ++ [s]) = (ofList sidechains).bind (·.add s) := by
  rw [ofList, List.foldlM_append, ofList]
  cases sidechains.foldlM add empty with
  | error e => rfl
  | ok t =>
    show (t.add s >>= pure) = t.add s
    exact bind_pure _

theorem ofList_cases (sidechains : List Sidechain) :
    (∃ t, ofList sidechains = .ok t ∧ t.Holds sidechains ∧ Regular sidechains) ∨
      ∃ e i s, ofList sidechains = .error e ∧ sidechains[i]? = some s ∧
        Refuses (sidechains.take i) s e ∧ Regular (sidechains.take i) := by
  induction sidechains using List.reverseRecOn with
  | nil => exact .inl ⟨empty, rfl, .empty, nofun, .nil⟩
  | append_singleton earlier s ih =>
    rw [ofList_concat]
    rcases ih with ⟨t, ht, hholds, hregular⟩ | ⟨e, i, s', he, hi, hrefuses, hregular⟩
    · rw [ht]
      rcases add_cases hholds s with ⟨e, he, hrefuses⟩ | ⟨u, hu, hs, hnew, hholds'⟩
      · refine .inr ⟨e, earlier.length, s, he, by simp, ?_, ?_⟩
        · rwa [List.take_left]
        · rwa [List.take_left]
      · refine .inl ⟨u, hu, hholds', ?_, ?_⟩
        · simpa [or_imp, forall_and] using ⟨hregular.valid, hs⟩
        · rw [List.map_append, List.map_singleton, ← List.concat_eq_append]
          exact hregular.nodup.concat hnew
    · have hlt : i < earlier.length := (List.getElem?_eq_some_iff.mp hi).1
      rw [he]
      refine .inr ⟨e, i, s', rfl, ?_, ?_, ?_⟩
      · rwa [List.getElem?_append_left hlt]
      · rwa [List.take_append_of_le_length hlt.le]
      · rwa [List.take_append_of_le_length hlt.le]

theorem holds_of_ofList (h : ofList sidechains = .ok t) :
    t.Holds sidechains ∧ Regular sidechains := by
  rcases ofList_cases sidechains with ⟨t', ht, hholds, hregular⟩ | ⟨e, -, -, he, -⟩
  · obtain rfl := Except.ok.inj (h.symm.trans ht)
    exact ⟨hholds, hregular⟩
  · rw [he] at h
    cases h

theorem exists_ofList_iff : (∃ t, ofList sidechains = .ok t) ↔ Regular sidechains := by
  constructor
  · rintro ⟨t, ht⟩
    exact (holds_of_ofList ht).2
  · intro h
    rcases ofList_cases sidechains with ⟨t, ht, -⟩ | ⟨e, i, s, -, hi, hrefuses, -⟩
    · exact ⟨t, ht⟩
    · exact absurd hrefuses (h.not_refuses hi)

theorem ofList_of_perm (h : ofList sidechains = .ok t) (hperm : others.Perm sidechains) :
    ofList others = .ok t := by
  obtain ⟨hholds, hregular⟩ := holds_of_ofList h
  have hothers : Regular others :=
    ⟨fun s hs => hregular.valid s (hperm.mem_iff.mp hs),
      (hperm.map _).nodup_iff.mpr hregular.nodup⟩
  obtain ⟨u, hu⟩ := exists_ofList_iff.mpr hothers
  obtain rfl := (holds_of_ofList hu).1.unique (hholds.of_perm hperm)
  exact hu

@[simp] theorem ofList_toList (t : SidechainTable) : ofList t.toList = .ok t := by
  obtain ⟨u, hu⟩ := exists_ofList_iff.mpr t.regular_toList
  obtain rfl := (holds_of_ofList hu).1.unique t.holds_toList
  exact hu

theorem ofList_eq_error_iff :
    ofList sidechains = .error e ↔
      ∃ i s, sidechains[i]? = some s ∧ Refuses (sidechains.take i) s e ∧
        ∀ j < i, ∀ s', sidechains[j]? = some s' → ∀ e', ¬ Refuses (sidechains.take j) s' e' := by
  have hearlier {i : Nat} (hregular : Regular (sidechains.take i)) :
      ∀ j < i, ∀ s', sidechains[j]? = some s' → ∀ e', ¬ Refuses (sidechains.take j) s' e' := by
    intro j hj s' hs' e'
    rw [← List.getElem?_take_of_lt hj] at hs'
    have hnot := hregular.not_refuses hs' (e := e')
    rwa [List.take_take, min_eq_left hj.le] at hnot
  rcases ofList_cases sidechains with ⟨t, ht, -, hregular⟩ | ⟨e', i', s', he', hi', hrefuses', hr'⟩
  · rw [ht]
    refine iff_of_false nofun ?_
    rintro ⟨i, s, hi, hrefuses, -⟩
    exact hregular.not_refuses hi hrefuses
  · rw [he']
    constructor
    · rintro heq
      obtain rfl := Except.error.inj heq
      exact ⟨i', s', hi', hrefuses', hearlier hr'⟩
    · rintro ⟨i, s, hi, hrefuses, hfirst⟩
      rcases Nat.lt_trichotomy i i' with hlt | rfl | hlt
      · exact absurd hrefuses (hearlier hr' i hlt s hi e)
      · obtain rfl := Option.some.inj (hi.symm.trans hi')
        rw [hrefuses.unique hrefuses']
      · exact absurd hrefuses' (hfirst i' hlt s' hi' e')

/-- A list makes a table exactly if every entry has a positive threshold within a period that is not
empty and the indices differ. The table finds each entry under its index and lists them in ascending
order; that list, or the given one in any other order, makes the same table. Otherwise the error is
that of the first position at which an entry is refused. -/
theorem made_from_regular_lists (sidechains : List Sidechain) :
    ((∃ t, ofList sidechains = .ok t) ↔
      (∀ s ∈ sidechains, 0 < s.period ∧ 1 ≤ s.threshold ∧ s.threshold ≤ s.period) ∧
        (sidechains.map (·.index)).Nodup) ∧
    (∀ t, ofList sidechains = .ok t →
      (∀ i s, t.get? i = some s ↔ s ∈ sidechains ∧ s.index = i) ∧
      (∀ i, t.contains i = true ↔ ∃ s ∈ sidechains, s.index = i) ∧
      t.toList.Pairwise (·.index < ·.index) ∧ t.toList.Perm sidechains ∧
      ofList t.toList = .ok t ∧
      ∀ others, others.Perm sidechains → ofList others = .ok t) ∧
    ∀ e, ofList sidechains = .error e ↔
      ∃ i s, sidechains[i]? = some s ∧ Refuses (sidechains.take i) s e ∧
        ∀ j < i, ∀ s', sidechains[j]? = some s' → ∀ e', ¬ Refuses (sidechains.take j) s' e' := by
  refine ⟨?_, ?_, fun e => ofList_eq_error_iff⟩
  · have hvalid (s : Sidechain) :
        s.Valid ↔ 0 < s.period ∧ 1 ≤ s.threshold ∧ s.threshold ≤ s.period := by
      have hpositive : 1 ≤ s.threshold ↔ 0 < s.threshold := by
        rw [UInt16.le_iff_toNat_le, UInt16.lt_iff_toNat_lt]
        rfl
      rw [hpositive]
      exact ⟨fun h => ⟨h.period_pos, h⟩, And.right⟩
    rw [exists_ofList_iff]
    simp only [← hvalid]
    exact ⟨fun h => ⟨h.valid, h.nodup⟩, fun h => ⟨h.1, h.2⟩⟩
  · intro t ht
    obtain ⟨hholds, hregular⟩ := holds_of_ofList ht
    refine ⟨hholds, ?_, ?_, hholds.perm_toList hregular, t.ofList_toList, ?_⟩
    · intro i
      rw [hholds.contains_iff, List.mem_map]
    · exact List.pairwise_map.mp t.ascending_toList
    · intro others hperm
      exact ofList_of_perm ht hperm

/-- Two sidechains make one table in either order. With a third one that repeats an index and a
fourth with an empty period, the third decides about the error. -/
theorem made_from_two_sidechains :
    let fast : Sidechain := ⟨7, "fast", 10, 5⟩
    let test : Sidechain := ⟨0, "test", 300, 100⟩
    let empty : Sidechain := ⟨3, "empty", 0, 0⟩
    (∃ t, ofList [fast, test] = .ok t ∧ t.toList = [test, fast] ∧ t.get? 7 = some fast ∧
      ofList [test, fast] = .ok t) ∧
    ofList [fast, test, fast, empty] = .error (.duplicate 7) := by
  intro fast test empty
  obtain ⟨hmade, hspec, -⟩ := made_from_regular_lists [fast, test]
  obtain ⟨t, ht⟩ := hmade.mpr (by decide)
  obtain ⟨hget, -, hascending, hperm, -, hothers⟩ := hspec t ht
  refine ⟨⟨t, ht, ?_, (hget 7 fast).mpr (by decide), hothers [test, fast] (by decide)⟩, ?_⟩
  · have hlist : [test, fast].Pairwise (·.index < ·.index) := by decide
    have hirrefl : Std.Antisymm fun s s' : Sidechain => s.index < s'.index :=
      ⟨fun s s' h h' => absurd h (UInt8.lt_asymm h')⟩
    exact (hperm.trans (by decide)).eq_of_pairwise' hascending hlist
  · refine ((made_from_regular_lists _).2.2 _).mpr
      ⟨2, fast, rfl, .duplicate (by decide) (by decide), ?_⟩
    intro j hj s' hs' e' hrefuses
    have hregular : Regular [fast, test] := ⟨by decide, by decide⟩
    have hj' : [fast, test][j]? = some s' := by
      rw [← hs']
      interval_cases j <;> rfl
    refine hregular.not_refuses hj' (e := e') ?_
    interval_cases j <;> exact hrefuses

end Making

end SidechainTable

end BundleTracker
