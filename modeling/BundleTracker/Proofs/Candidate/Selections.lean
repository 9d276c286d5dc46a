import Mathlib.Tactic
import Mathlib.Algebra.BigOperators.Group.Finset.Basic
import BundleTracker.Candidate.Source
import BundleTracker.Proofs.Candidate.Combinations

/-!
# The order of selections

The selections that are tried are exactly the admissible ones: none, one package, or
an ascending list of at least two and at most as many as may be merged. They come by
size, those of one size in lexicographic order of the positions, so none comes twice,
and their number is a sum of binomial coefficients.
-/

namespace BundleTracker
namespace Source

open Combination (choose mem_choose_iff length_of_mem_choose length_choose choose_one
  pairwise_choose)

/-- The selections out of `count` packages with combinations of at most `most`. -/
inductive Admissible (count most : Nat) : Source → Prop
  | noUpdate : Admissible count most .noUpdate
  | package {index : Nat} : index < count → Admissible count most (.package index)
  | combination {indices : List Nat} : indices.Pairwise (· < ·) → (∀ i ∈ indices, i < count) →
      2 ≤ indices.length → indices.length ≤ most → Admissible count most (.combination indices)

/-- Smaller selections come first, and those of one size in lexicographic order. -/
def Precedes (a b : Source) : Prop :=
  a.indices.length < b.indices.length ∨
    a.indices.length = b.indices.length ∧ List.Lex (· < ·) a.indices b.indices

theorem Precedes.asymm {a b : Source} (h : a.Precedes b) : ¬ b.Precedes a := by
  rintro (hlt | ⟨heq, hlex⟩)
  · rcases h with h | ⟨h, -⟩ <;> omega
  · rcases h with h | ⟨-, h⟩
    · omega
    · exact asymm_of (List.Lex (· < ·)) h hlex

theorem Precedes.irrefl (a : Source) : ¬ a.Precedes a := fun h => h.asymm h

theorem sublist_range_iff {count : Nat} {l : List Nat} :
    l.Sublist (List.range count) ↔ l.Pairwise (· < ·) ∧ ∀ i ∈ l, i < count := by
  constructor
  · intro h
    exact ⟨List.pairwise_lt_range.sublist h, fun i hi => List.mem_range.mp (h.subset hi)⟩
  · rintro ⟨hlt, hbound⟩
    have hsub : l.Subperm (List.range count) :=
      List.subperm_of_subset (hlt.imp Nat.ne_of_lt) fun i hi => List.mem_range.mpr (hbound i hi)
    exact List.sublist_of_subperm_of_pairwise hsub hlt List.pairwise_lt_range

theorem ofSize_add_two (count size : Nat) :
    ofSize count (size + 2) = (choose (size + 2) (List.range count)).map .combination := by
  rw [ofSize, Combination.list_eq (by omega)]
  · omega
  · omega

theorem map_indices_ofSize (count size : Nat) :
    (ofSize count size).map indices = choose size (List.range count) := by
  match size with
  | 0 => simp [ofSize, choose, indices]
  | 1 => simp [ofSize, choose_one, indices, Function.comp_def]
  | size + 2 => simp [ofSize_add_two, indices, Function.comp_def]

theorem length_indices_of_mem {count size : Nat} {source : Source}
    (h : source ∈ ofSize count size) : source.indices.length = size := by
  have hmem : source.indices ∈ choose size (List.range count) := by
    rw [← map_indices_ofSize]
    exact List.mem_map_of_mem h
  exact length_of_mem_choose hmem

theorem mem_sizes_iff {count most size : Nat} :
    size ∈ sizes count most ↔ size ≤ count ∧ size ≤ max 1 most := by
  rw [sizes, List.mem_range, Nat.lt_succ_iff, Nat.le_min]

theorem Admissible.mem_all {count most : Nat} {source : Source} (h : source.Admissible count most) :
    source ∈ all count most := by
  rw [all, List.mem_flatMap]
  cases h with
  | noUpdate => exact ⟨0, mem_sizes_iff.mpr (by omega), by simp [ofSize]⟩
  | @package index hlt => exact ⟨1, mem_sizes_iff.mpr (by omega), by simp [ofSize, hlt]⟩
  | @combination indices hlt hbound htwo hmost =>
    have hsub : indices.Sublist (List.range count) := sublist_range_iff.mpr ⟨hlt, hbound⟩
    have hcount : indices.length ≤ count := by simpa using hsub.length_le
    refine ⟨indices.length, mem_sizes_iff.mpr (by omega), ?_⟩
    obtain ⟨size, hsize⟩ : ∃ size, indices.length = size + 2 := ⟨indices.length - 2, by omega⟩
    rw [hsize, ofSize_add_two]
    exact List.mem_map_of_mem (mem_choose_iff.mpr ⟨hsub, hsize⟩)

theorem admissible_of_mem_all {count most : Nat} {source : Source} (h : source ∈ all count most) :
    source.Admissible count most := by
  obtain ⟨size, hsize, hmem⟩ := List.mem_flatMap.mp h
  obtain ⟨-, hmost⟩ := mem_sizes_iff.mp hsize
  match size, hmem with
  | 0, hmem =>
    obtain rfl : source = .noUpdate := by simpa [ofSize] using hmem
    exact .noUpdate
  | 1, hmem =>
    obtain ⟨index, hlt, rfl⟩ : ∃ index, index < count ∧ .package index = source := by
      simpa [ofSize] using hmem
    exact .package hlt
  | size + 2, hmem =>
    rw [ofSize_add_two] at hmem
    obtain ⟨indices, hchosen, rfl⟩ := List.mem_map.mp hmem
    obtain ⟨hsub, hlen⟩ := mem_choose_iff.mp hchosen
    obtain ⟨hlt, hbound⟩ := sublist_range_iff.mp hsub
    exact .combination hlt hbound (by omega) (by omega)

theorem mem_all_iff {count most : Nat} {source : Source} :
    source ∈ all count most ↔ source.Admissible count most :=
  ⟨admissible_of_mem_all, Admissible.mem_all⟩

theorem pairwise_ofSize (count size : Nat) : (ofSize count size).Pairwise Precedes := by
  have hlex : (ofSize count size).Pairwise fun a b => List.Lex (· < ·) a.indices b.indices := by
    rw [← List.pairwise_map, map_indices_ofSize]
    exact pairwise_choose List.pairwise_lt_range size
  apply hlex.imp_of_mem
  intro a b ha hb h
  right
  exact ⟨(length_indices_of_mem ha).trans (length_indices_of_mem hb).symm, h⟩

/-- The selections are tried in their order, so none is tried twice. -/
theorem pairwise_all (count most : Nat) : (all count most).Pairwise Precedes := by
  rw [all, List.pairwise_flatMap]
  constructor
  · intro size _
    exact pairwise_ofSize count size
  · apply List.pairwise_lt_range.imp
    intro first second hlt a ha b hb
    left
    rwa [length_indices_of_mem ha, length_indices_of_mem hb]

example : (all 3 2).map indices = [[], [0], [1], [2], [0, 1], [0, 2], [1, 2]] := by
  decide +kernel

theorem nodup_all (count most : Nat) : (all count most).Nodup := by
  apply (pairwise_all count most).imp
  rintro a _ hprec rfl
  exact hprec.irrefl a

theorem length_all (count most : Nat) :
    (all count most).length =
      ∑ size ∈ Finset.range (min count (max 1 most) + 1), count.choose size := by
  have hsize : ∀ size, (ofSize count size).length = count.choose size := by
    intro size
    have h := congrArg List.length (map_indices_ofSize count size)
    rwa [List.length_map, length_choose, List.length_range] at h
  rw [all, sizes, List.length_flatMap, List.map_congr_left fun size _ => hsize size]
  rfl

section Enumeration

variable {count most : Nat}

def combinations (count most : Nat) : List (List Nat) :=
  (List.range' 2 (min most count - 1)).flatMap fun size => choose size (List.range count)

/-- No selection, the packages alone and the combinations are tried one after the other. -/
theorem all_eq (count most : Nat) :
    all count most = .noUpdate :: (List.range count).map .package ++
      (combinations count most).map .combination := by
  have hcombinations : (List.range' 2 (min most count - 1)).flatMap (ofSize count) =
      (combinations count most).map .combination := by
    rw [combinations, List.map_flatMap]
    refine List.flatMap_congr fun size hsize => ?_
    have htwo : 2 ≤ size := (List.mem_range'_1.mp hsize).1
    obtain ⟨more, rfl⟩ := Nat.exists_eq_add_of_le' htwo
    exact ofSize_add_two count more
  rw [← hcombinations, all, sizes]
  cases count with
  | zero => simp [ofSize]
  | succ n =>
    have hsizes : min (n + 1) (max 1 most) + 1 = min most (n + 1) - 1 + 2 := by omega
    rw [hsizes, List.range_eq_range', List.range'_succ, List.range'_succ]
    rfl

theorem mem_combinations_iff {l : List Nat} :
    l ∈ combinations count most ↔
      l.Pairwise (· < ·) ∧ (∀ i ∈ l, i < count) ∧ 2 ≤ l.length ∧ l.length ≤ min most count := by
  have hmem : l ∈ combinations count most ↔ Source.combination l ∈ all count most := by
    simp [all_eq]
  rw [hmem, mem_all_iff]
  constructor
  · intro h
    cases h with
    | combination hlt hbound htwo hmost =>
      have hcount := (sublist_range_iff.mpr ⟨hlt, hbound⟩).length_le
      rw [List.length_range] at hcount
      exact ⟨hlt, hbound, htwo, Nat.le_min.mpr ⟨hmost, hcount⟩⟩
  · rintro ⟨hlt, hbound, htwo, hmost⟩
    exact .combination hlt hbound htwo (Nat.le_min.mp hmost).1

theorem pairwise_combinations (count most : Nat) :
    (combinations count most).Pairwise fun a b =>
      a.length < b.length ∨ a.length = b.length ∧ List.Lex (· < ·) a b := by
  have hall := pairwise_all count most
  rw [all_eq] at hall
  exact List.pairwise_map.mp (List.pairwise_append.mp hall).2.1

theorem sum_choose_sizes (count most : Nat) :
    ∑ size ∈ Finset.range (min count (max 1 most) + 1), count.choose size =
      1 + count + ∑ size ∈ Finset.Icc 2 (min most count), count.choose size := by
  cases count with
  | zero => simp
  | succ n =>
    have hsizes : min (n + 1) (max 1 most) + 1 = min most (n + 1) - 1 + 2 := by omega
    have hIcc : Finset.Icc 2 (min most (n + 1)) = Finset.Ico 2 (min most (n + 1) - 1 + 2) := by
      ext size
      rw [Finset.mem_Icc, Finset.mem_Ico]
      omega
    rw [hsizes, hIcc, Finset.range_eq_Ico, Finset.sum_eq_sum_Ico_succ_bot (by omega),
      Finset.sum_eq_sum_Ico_succ_bot (by omega), Nat.choose_zero_right, Nat.choose_one_right]
    exact (Nat.add_assoc ..).symm

/-- The selections are listed exactly: no selection, then each package alone, then every ascending
list of at least two positions, as many as may be merged at most, by length and then in
lexicographic order. None comes twice, and their number is a sum of binomial coefficients. The
listing comes to its end, and no step of it subtracts below zero or looks outside of its list. -/
theorem listed_exactly (count most : Nat) :
    ∃ combinations : List (List Nat),
      all count most = .noUpdate :: (List.range count).map .package ++
        combinations.map .combination ∧
      (∀ l, l ∈ combinations ↔
        l.Pairwise (· < ·) ∧ (∀ i ∈ l, i < count) ∧ 2 ≤ l.length ∧ l.length ≤ min most count) ∧
      (combinations.Pairwise fun a b =>
        a.length < b.length ∨ a.length = b.length ∧ List.Lex (· < ·) a b) ∧
      (all count most).Nodup ∧
      (all count most).length =
        1 + count + ∑ size ∈ Finset.Icc 2 (min most count), count.choose size ∧
      (∀ size, ∃ listed, Combination.list count size = .ok listed) ∧
      ∀ l ∈ combinations, ∃ next, Combination.next? count l = .ok next := by
  refine ⟨combinations count most, all_eq count most, fun _ => mem_combinations_iff,
    pairwise_combinations count most, nodup_all count most, ?_,
    Combination.exists_list_eq_ok count, ?_⟩
  · rw [length_all, sum_choose_sizes]
  · intro l hl
    obtain ⟨-, -, -, hlength⟩ := mem_combinations_iff.mp hl
    exact ⟨_, Combination.next?_eq (Nat.le_min.mp hlength).2⟩

end Enumeration

end Source
end BundleTracker
