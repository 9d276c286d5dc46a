import Mathlib.Tactic
import BundleTracker.Proofs.Params.Table
import BundleTracker.Proofs.State.Canonical

/-!
# Listing a state by its sidechains

The list of all records goes through the sidechains in ascending order. A state whose sidechains are
all registered can be listed by the table of the registered ones as well, since the others have no
records.
-/

namespace BundleTracker

theorem eq_of_ascending {α : Type} [Ord α] [Std.TransOrd α] {l m : List α}
    (hl : l.Pairwise fun a b => compare a b = .lt) (hm : m.Pairwise fun a b => compare a b = .lt)
    (h : ∀ a, a ∈ l ↔ a ∈ m) : l = m := by
  have hirrefl : Std.Irrefl fun a b : α => compare a b = .lt :=
    ⟨fun a ha => by simp [Std.compare_self] at ha⟩
  have hantisymm : Std.Antisymm fun a b : α => compare a b = .lt := by
    refine ⟨fun a b hab hba => ?_⟩
    have hswap : compare b a = (compare a b).swap := Std.OrientedCmp.eq_swap
    rw [hab, hba] at hswap
    cases hswap
  exact hl.eq_of_mem_iff hm h

namespace State

variable {s : State} {table : SidechainTable} {i : UInt8}

theorem mem_sidechains_iff (h : s.Canonical) : i ∈ s.sidechains ↔ s.on i ≠ [] := by
  rw [sidechains, Std.ExtTreeMap.mem_keys, ← Std.ExtTreeMap.isSome_getElem?_iff_mem, getElem?_eq h]
  split_ifs with hnil <;> simp [hnil]

theorem eq_of_on_eq {t : State} (hs : s.Canonical) (ht : t.Canonical) (h : ∀ i, s.on i = t.on i) :
    s = t := by
  ext1 i
  rw [getElem?_eq hs, getElem?_eq ht, h i]

theorem on_of_not_mem_sidechains (h : i ∉ s.sidechains) : s.on i = [] := by
  rw [sidechains, Std.ExtTreeMap.mem_keys] at h
  rw [on_eq, Std.ExtTreeMap.getElem?_eq_none h, Option.getD_none]

theorem toList_eq_flatMap_sidechains (s : State) : s.toList = s.sidechains.flatMap s.on := by
  rw [toList, sidechains, ← Std.ExtTreeMap.map_fst_toList_eq_keys, List.flatMap_map]
  refine List.flatMap_congr fun e he => ?_
  exact (on_of_getElem? (Std.ExtTreeMap.mem_toList_iff_getElem?_eq_some.mp he)).symm

/-- Every sidechain with tracked bundles is registered. -/
def Registered (s : State) (table : SidechainTable) : Prop :=
  ∀ i ∈ s.sidechains, (table.get? i).isSome

/-- The records of a state whose sidechains are all registered, sidechain by sidechain. -/
theorem Registered.toList_eq_flatMap (h : s.Registered table) :
    s.toList = table.toList.flatMap fun sidechain => s.on sidechain.index := by
  have hfilter : s.sidechains = table.entries.keys.filter (· ∈ s.sidechains) := by
    refine eq_of_ascending Std.ExtTreeMap.ordered_keys (Std.ExtTreeMap.ordered_keys.filter _)
      fun i => ?_
    rw [List.mem_filter, decide_eq_true_eq, Std.ExtTreeMap.mem_keys]
    exact ⟨fun hi => ⟨Std.ExtTreeMap.isSome_getElem?_iff_mem.mp (h i hi), hi⟩, And.right⟩
  have hall : table.toList.flatMap (fun sidechain => s.on sidechain.index) =
      table.entries.keys.flatMap s.on := by
    rw [← table.map_index_toList, List.flatMap_map]
  rw [toList_eq_flatMap_sidechains, hfilter, hall]
  generalize table.entries.keys = indices
  induction indices with
  | nil => rfl
  | cons i rest ih =>
    by_cases hi : i ∈ s.sidechains
    · simp [hi, ih]
    · simp [hi, ih, on_of_not_mem_sidechains hi]

theorem Registered.on_eq_nil (h : s.Registered table) (hi : table.get? i = none) : s.on i = [] := by
  refine on_of_not_mem_sidechains fun hmem => ?_
  have hsome := h i hmem
  rw [hi] at hsome
  cases hsome

end State

end BundleTracker
