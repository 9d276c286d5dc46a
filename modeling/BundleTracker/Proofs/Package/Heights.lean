import Mathlib.Tactic
import BundleTracker.Proofs.Package.Buffer

/-!
# The heights that packages wait at

A package is refused only if as many heights as fit are taken, all of them below its own.
Distinct heights within a window of as many are fewer than fit as long as one of the window
is free, so heights above the window are given up first, and a package within it is taken in
without any other height of the window losing its packages.

Of all heights that packages were handed in for, an empty buffer comes to keep the lowest ones.
-/

namespace BundleTracker
namespace Buffer

variable {b : Buffer} {p q : Package} {height k : UInt64}

section Filing

/-- Every height that is kept has packages, all of them for that height. -/
def Filed (b : Buffer) : Prop :=
  ∀ ⦃height : UInt64⦄ ⦃held : List Package⦄, b.waiting[height]? = some held →
    held ≠ [] ∧ ∀ p ∈ held, p.height = height

namespace Filed

theorem empty (h : b.waiting = ∅) : b.Filed := by
  intro height held hheld
  simp [h] at hheld

theorem height_eq (h : b.Filed) (hp : p ∈ b.packagesAt height) : p.height = height := by
  rw [packagesAt_eq] at hp
  cases hheld : b.waiting[height]? with
  | none => simp [hheld] at hp
  | some held =>
    rw [hheld] at hp
    exact (h hheld).2 p hp

theorem put (h : b.Filed) {held : List Package} (hne : held ≠ [])
    (hheld : ∀ p ∈ held, p.height = height) : (b.put height held).Filed := by
  intro k other hk
  rw [Buffer.put, Std.ExtTreeMap.getElem?_insert] at hk
  split at hk
  · rename_i heq
    obtain rfl := Std.LawfulEqCmp.eq_of_compare heq
    obtain rfl := Option.some.inj hk
    exact ⟨hne, hheld⟩
  · exact h hk

theorem giveUp (h : b.Filed) (height : UInt64) : (b.giveUp height).Filed := by
  intro k held hk
  rw [Buffer.giveUp, Std.ExtTreeMap.getElem?_erase] at hk
  split at hk
  · cases hk
  · exact h hk

theorem pruneThrough (h : b.Filed) (height : UInt64) : (b.pruneThrough height).Filed := by
  intro k held hk
  rw [pruneThrough_eq, Std.ExtTreeMap.getElem?_filter', Option.filter_eq_some_iff] at hk
  exact h hk.1

theorem store (h : b.Filed) (p : Package) : (b.store p).1.Filed := by
  have hstores := b.stores p
  generalize b.store p = result at hstores ⊢
  cases hstores with
  | duplicate _ => exact h
  | replaced _ =>
    refine h.put (by simp) ?_
    intro q hq
    rcases List.mem_append.mp hq with hq | hq
    · exact h.height_eq (List.mem_of_mem_tail hq)
    · rw [List.mem_singleton.mp hq]
  | buffered =>
    refine h.put (by simp) ?_
    intro q hq
    rcases List.mem_append.mp hq with hq | hq
    · exact h.height_eq hq
    · rw [List.mem_singleton.mp hq]

theorem add (h : b.Filed) (p : Package) : (b.add p).1.Filed := by
  rcases b.add_cases p with ⟨room, hroom, heq⟩ | ⟨-, heq⟩
  · rw [heq]
    cases hroom with
    | there _ => exact h.store p
    | givenUp _ _ _ _ _ => exact (h.giveUp _).store p
  · rw [heq]
    exact h

end Filed

end Filing

section Places

def heights (b : Buffer) : Finset UInt64 := b.waiting.keys.toFinset

@[simp] theorem mem_heights : k ∈ b.heights ↔ k ∈ b.waiting := by
  rw [heights, List.mem_toFinset, Std.ExtTreeMap.mem_keys]

theorem card_heights (b : Buffer) : b.heights.card = b.waiting.size := by
  rw [heights, List.toFinset_card_of_nodup Std.ExtTreeMap.nodup_keys, Std.ExtTreeMap.length_keys]

theorem mem_waiting_of_mem_packagesAt (h : p ∈ b.packagesAt height) : height ∈ b.waiting := by
  by_contra hnone
  rw [packagesAt_of_not_mem hnone] at h
  cases h

theorem mem_waiting_pruneThrough_iff :
    k ∈ (b.pruneThrough height).waiting ↔ height < k ∧ k ∈ b.waiting := by
  rw [pruneThrough_eq, Std.ExtTreeMap.mem_filter]
  simp only [Std.ExtTreeMap.getKey_eq, decide_eq_true_eq]
  exact ⟨fun ⟨hk, hlt⟩ => ⟨hlt, hk⟩, fun ⟨hlt, hk⟩ => ⟨hk, hlt⟩⟩

theorem mem_waiting_pruneThrough (h : k ∈ (b.pruneThrough height).waiting) :
    height < k ∧ k ∈ b.waiting :=
  mem_waiting_pruneThrough_iff.mp h

theorem heights_giveUp (b : Buffer) (height : UInt64) :
    (b.giveUp height).heights = b.heights.erase height := by
  ext k
  rw [mem_heights, giveUp, Std.ExtTreeMap.mem_erase, Finset.mem_erase, mem_heights, ne_eq,
    Std.LawfulEqCmp.compare_eq_iff_eq, ne_comm]

theorem heights_put (b : Buffer) (height : UInt64) (held : List Package) :
    (b.put height held).heights = insert height b.heights := by
  ext k
  rw [mem_heights, put, Std.ExtTreeMap.mem_insert, Finset.mem_insert, mem_heights,
    Std.LawfulEqCmp.compare_eq_iff_eq, eq_comm]

theorem heights_store (b : Buffer) (p : Package) :
    (b.store p).1.heights = insert p.height b.heights := by
  have hstores := b.stores p
  generalize b.store p = result at hstores ⊢
  cases hstores with
  | duplicate hmem =>
    exact (Finset.insert_eq_of_mem (mem_heights.mpr (mem_waiting_of_mem_packagesAt hmem))).symm
  | replaced _ => exact heights_put _ _ _
  | buffered => exact heights_put _ _ _

@[simp] theorem maxHeights_store (b : Buffer) (p : Package) :
    (b.store p).1.maxHeights = b.maxHeights := by
  have hstores := b.stores p
  generalize b.store p = result at hstores ⊢
  cases hstores <;> rfl

@[simp] theorem maxHeights_add (b : Buffer) (p : Package) :
    (b.add p).1.maxHeights = b.maxHeights := by
  rcases b.add_cases p with ⟨room, hroom, heq⟩ | ⟨-, heq⟩
  · rw [heq]
    exact (room.maxHeights_store p).trans hroom.maxHeights_eq
  · rw [heq]

theorem mem_waiting_add (h : k ∈ (b.add p).1.waiting) : k = p.height ∨ k ∈ b.waiting := by
  rcases b.add_cases p with ⟨room, hroom, heq⟩ | ⟨-, heq⟩
  · simp only [heq, ← mem_heights, heights_store, Finset.mem_insert] at h ⊢
    refine h.imp_right fun hk => ?_
    cases hroom with
    | there _ => exact hk
    | givenUp _ _ _ _ _ =>
      rw [heights_giveUp] at hk
      exact Finset.mem_of_mem_erase hk
  · rw [heq] at h
    exact Or.inr h

end Places

theorem Crowded.not_mem (h : b.Crowded height) : height ∉ b.waiting :=
  fun hmem => UInt64.lt_irrefl height (h.below height hmem)

section Admission

theorem add_of_crowded (h : b.Crowded p.height) : b.add p = (b, .tooFar) := by
  rcases b.add_cases p with ⟨room, hroom, -⟩ | ⟨-, heq⟩
  · exact absurd h hroom.not_crowded
  · exact heq

theorem mem_packagesAt_add (h : ¬ b.Crowded p.height) :
    p ∈ (b.add p).1.packagesAt p.height := by
  have hadds := b.adds p
  generalize b.add p = result at hadds ⊢
  cases hadds with
  | refused hcrowded => exact absurd hcrowded h
  | @taken room _ _ hstores =>
    cases hstores with
    | duplicate hmem => exact hmem
    | replaced _ => simp [packagesAt_put]
    | buffered => simp [packagesAt_put]

theorem admission_of_not_crowded (h : ¬ b.Crowded p.height) :
    (b.add p).2 = .buffered ∨ (b.add p).2 = .replaced ∨ (b.add p).2 = .duplicate := by
  have hadds := b.adds p
  generalize b.add p = result at hadds ⊢
  cases hadds with
  | refused hcrowded => exact absurd hcrowded h
  | taken _ hstores => cases hstores <;> simp

end Admission

section Window

variable {lo count : Nat}

/-- If a height of a window is free, fewer heights are taken than the window has. -/
theorem size_lt_of_within (hnew : height ∉ b.waiting)
    (hwithin : ∀ k ∈ b.waiting, lo < k.toNat ∧ k.toNat ≤ lo + count)
    (hheight : lo < height.toNat ∧ height.toNat ≤ lo + count) : b.waiting.size < count := by
  have hcard : (insert height b.heights).card ≤ (Finset.Ioc lo (lo + count)).card := by
    refine Finset.card_le_card_of_injOn UInt64.toNat ?_ fun _ _ _ _ => UInt64.toNat_inj.mp
    intro k hk
    rw [Finset.mem_coe, Finset.mem_insert, mem_heights] at hk
    rw [Finset.mem_coe, Finset.mem_Ioc]
    rcases hk with rfl | hk
    · exact hheight
    · exact hwithin k hk
  rw [Finset.card_insert_of_notMem (mem_heights.not.mpr hnew), card_heights, Nat.card_Ioc] at hcard
  omega

/-- With all heights above `lo`, the buffer is never crowded below one of the window above it. -/
theorem not_crowded_of_within (habove : ∀ k ∈ b.waiting, lo < k.toNat) (hlo : lo < height.toNat)
    (hhigh : height.toNat ≤ lo + b.maxHeights) : ¬ b.Crowded height := by
  intro hcrowded
  have hlt : b.waiting.size < b.maxHeights := by
    refine size_lt_of_within hcrowded.not_mem (fun k hk => ⟨habove k hk, ?_⟩) ⟨hlo, hhigh⟩
    have hbelow := UInt64.lt_iff_toNat_lt.mp (hcrowded.below k hk)
    omega
  exact Nat.not_lt.mpr hcrowded.full hlt

theorem packagesAt_add_of_within (habove : ∀ k ∈ b.waiting, lo < k.toNat)
    (hlo : lo < p.height.toNat) (hhigh : p.height.toNat ≤ lo + b.maxHeights)
    (hk : k.toNat ≤ lo + b.maxHeights) (hne : k ≠ p.height) :
    (b.add p).1.packagesAt k = b.packagesAt k := by
  rcases b.add_cases p with ⟨room, hroom, heq⟩ | ⟨-, heq⟩
  · rw [heq]
    rw [packagesAt_store_of_ne hne.symm]
    cases hroom with
    | there _ => rfl
    | @givenUp highest hnew hfull _ hle _ =>
      refine b.packagesAt_giveUp ?_
      rintro rfl
      refine Nat.not_lt.mpr hfull (size_lt_of_within hnew (fun j hj => ⟨habove j hj, ?_⟩)
        ⟨hlo, hhigh⟩)
      exact (UInt64.le_iff_toNat_le.mp (hle j hj)).trans hk
  · rw [heq]

end Window

section Lowest

variable {seen : Finset UInt64}

theorem crowded_iff_heights :
    b.Crowded height ↔ b.maxHeights ≤ b.heights.card ∧ ∀ k ∈ b.heights, k < height := by
  simp only [card_heights, mem_heights]
  exact ⟨fun h => ⟨h.full, h.below⟩, fun h => ⟨h.1, h.2⟩⟩

/-- Of the heights in `seen` the buffer keeps the lowest ones: it is crowded below each one that
is missing. -/
structure KeepsLowest (b : Buffer) (seen : Finset UInt64) : Prop where
  subset : b.heights ⊆ seen
  card_le : b.heights.card ≤ b.maxHeights
  crowded : ∀ k ∈ seen, k ∉ b.heights → b.Crowded k

namespace KeepsLowest

theorem empty (h : b.waiting = ∅) : b.KeepsLowest ∅ where
  subset := by simp [heights, h]
  card_le := by simp [card_heights, h]
  crowded _ hk := absurd hk (Finset.notMem_empty _)

theorem store (h : b.KeepsLowest seen)
    (hthere : p.height ∈ b.waiting ∨ b.waiting.size < b.maxHeights) :
    (b.store p).1.KeepsLowest (insert p.height seen) := by
  rw [← mem_heights, ← card_heights] at hthere
  refine ⟨?_, ?_, ?_⟩
  · rw [heights_store]
    exact Finset.insert_subset_insert _ h.subset
  · rw [heights_store, maxHeights_store]
    rcases hthere with hmem | hlt
    · rw [Finset.insert_eq_of_mem hmem]
      exact h.card_le
    · exact (Finset.card_insert_le _ _).trans hlt
  · intro k hk hmissing
    rw [heights_store, Finset.mem_insert, not_or] at hmissing
    have hcrowded := h.crowded k (Finset.mem_of_mem_insert_of_ne hk hmissing.1) hmissing.2
    rw [crowded_iff_heights] at hcrowded ⊢
    rw [heights_store, maxHeights_store]
    rcases hthere with hmem | hlt
    · rwa [Finset.insert_eq_of_mem hmem]
    · exact absurd hcrowded.1 (Nat.not_le.mpr hlt)

/-- The highest height is given up for a lower one, and all that are left are below it. -/
theorem store_giveUp {highest : UInt64} (h : b.KeepsLowest seen) (hnew : p.height ∉ b.waiting)
    (hfull : b.maxHeights ≤ b.waiting.size) (hmem : highest ∈ b.waiting)
    (hle : ∀ k ∈ b.waiting, k ≤ highest) (hlt : p.height < highest) :
    ((b.giveUp highest).store p).1.KeepsLowest (insert p.height seen) := by
  have hkept : ((b.giveUp highest).store p).1.heights =
      insert p.height (b.heights.erase highest) := by
    rw [heights_store, heights_giveUp]
  have hcard : (insert p.height (b.heights.erase highest)).card = b.heights.card := by
    rw [Finset.card_insert_of_notMem, Finset.card_erase_add_one (mem_heights.mpr hmem)]
    exact fun hp => hnew (mem_heights.mp (Finset.mem_of_mem_erase hp))
  refine ⟨?_, ?_, ?_⟩
  · rw [hkept]
    exact Finset.insert_subset_insert _ ((Finset.erase_subset _ _).trans h.subset)
  · rw [hkept, hcard, maxHeights_store]
    exact h.card_le
  · intro k hk hmissing
    rw [hkept, Finset.mem_insert, Finset.mem_erase, not_or, not_and] at hmissing
    obtain ⟨hne, hmissing⟩ := hmissing
    have hhighest : highest ≤ k := by
      by_cases heq : k = highest
      · exact heq ▸ UInt64.le_refl k
      · have hcrowded := h.crowded k (Finset.mem_of_mem_insert_of_ne hk hne) (hmissing heq)
        exact UInt64.le_of_lt (hcrowded.below highest hmem)
    rw [crowded_iff_heights, hkept, hcard, maxHeights_store, card_heights]
    refine ⟨hfull, fun j hj => ?_⟩
    rw [Finset.mem_insert, Finset.mem_erase, mem_heights] at hj
    rcases hj with rfl | ⟨hj, hwaits⟩
    · exact UInt64.lt_of_lt_of_le hlt hhighest
    · exact UInt64.lt_of_lt_of_le (UInt64.lt_of_le_of_ne (hle j hwaits) hj) hhighest

theorem add (h : b.KeepsLowest seen) (p : Package) :
    (b.add p).1.KeepsLowest (insert p.height seen) := by
  rcases b.add_cases p with ⟨room, hroom, heq⟩ | ⟨hcrowded, heq⟩
  · rw [heq]
    cases hroom with
    | there hthere => exact h.store hthere
    | givenUp hnew hfull hmem hle hlt => exact h.store_giveUp hnew hfull hmem hle hlt
  · rw [heq]
    refine ⟨h.subset.trans (Finset.subset_insert _ _), h.card_le, fun k hk hmissing => ?_⟩
    rcases Finset.mem_insert.mp hk with rfl | hk
    · exact hcrowded
    · exact h.crowded k hk hmissing

/-- The buffer is crowded below a height if as many lower ones as fit were seen. -/
theorem crowded_iff (h : b.KeepsLowest seen) :
    b.Crowded height ↔ b.maxHeights ≤ (seen.filter (· < height)).card := by
  rw [crowded_iff_heights]
  constructor
  · rintro ⟨hfull, hbelow⟩
    refine hfull.trans (Finset.card_le_card fun k hk => ?_)
    exact Finset.mem_filter.mpr ⟨h.subset hk, hbelow k hk⟩
  · intro hcount
    have hfull : b.maxHeights ≤ b.heights.card := by
      by_contra hlt
      refine hlt (hcount.trans (Finset.card_le_card fun k hk => ?_))
      by_contra hmissing
      exact hlt (crowded_iff_heights.mp (h.crowded k (Finset.mem_filter.mp hk).1 hmissing)).1
    refine ⟨hfull, fun j hj => ?_⟩
    by_contra hge
    have hsubset : seen.filter (· < height) ⊆ b.heights.erase j := by
      intro k hk
      obtain ⟨hk, hlt⟩ := Finset.mem_filter.mp hk
      have hkj : k < j := UInt64.lt_of_lt_of_le hlt (UInt64.not_lt.mp hge)
      refine Finset.mem_erase.mpr ⟨UInt64.ne_of_lt hkj, ?_⟩
      by_contra hmissing
      have hcrowded := h.crowded k hk hmissing
      exact UInt64.lt_asymm hkj (hcrowded.below j (mem_heights.mp hj))
    have hle := hcount.trans (Finset.card_le_card hsubset)
    have hlt := Finset.card_erase_lt_of_mem hj
    exact absurd (hle.trans_lt hlt) (Nat.not_lt.mpr h.card_le)

end KeepsLowest

end Lowest

end Buffer
end BundleTracker
