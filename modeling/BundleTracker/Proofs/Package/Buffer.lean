import Mathlib.Tactic
import BundleTracker.Package.Buffer

/-!
# How long a package waits

A full height gives up its oldest package only, and a full buffer gives up a height only
for a lower one. So a package stays in the buffer as long as fewer packages than fit are
handed in for its height and none for a lower one.
-/

namespace BundleTracker
namespace Buffer

variable {b : Buffer} {p q : Package} {behind : Nat}

section Heights

theorem packagesAt_eq (b : Buffer) (height : UInt64) :
    b.packagesAt height = b.waiting[height]?.getD [] :=
  Std.ExtTreeMap.getD_eq_getD_getElem?

theorem packagesAt_of_not_mem {height : UInt64} (h : height ∉ b.waiting) :
    b.packagesAt height = [] := by
  rw [packagesAt_eq, Std.ExtTreeMap.getElem?_eq_none h]
  rfl

/-- Exactly the heights above are kept, also if `height` is the greatest one. -/
theorem pruneThrough_eq (b : Buffer) (height : UInt64) :
    b.pruneThrough height = { b with waiting := b.waiting.filter fun k _ => height < k } := by
  unfold pruneThrough
  dsimp only
  split_ifs with hgreatest
  · have hnone : (b.waiting.filter fun k _ => height < k) = ∅ := by
      refine Std.ExtTreeMap.ext_getElem? fun k => ?_
      have hle : ¬ height < k := by
        rw [hgreatest, UInt64.not_lt, UInt64.le_iff_toNat_le]
        exact Nat.le_of_lt_succ k.toNat_lt
      rw [Std.ExtTreeMap.getElem?_filter', Std.ExtTreeMap.getElem?_empty]
      cases b.waiting[k]? <;> simp [hle, Option.filter]
    rw [clear, hnone]
  · have hnext : ∀ k : UInt64, nextHeight height ≤ k ↔ height < k := by
      intro k
      have hne : height.toNat ≠ 0xffffffffffffffff := fun h => hgreatest (UInt64.toNat_inj.mp h)
      have hlt := height.toNat_lt
      rw [UInt64.le_iff_toNat_le, toNat_nextHeight, UInt64.lt_iff_toNat_lt]
      omega
    simp only [hnext]

@[simp] theorem maxPerHeight_pruneThrough (b : Buffer) (height : UInt64) :
    (b.pruneThrough height).maxPerHeight = b.maxPerHeight := by
  rw [pruneThrough_eq]

@[simp] theorem maxHeights_pruneThrough (b : Buffer) (height : UInt64) :
    (b.pruneThrough height).maxHeights = b.maxHeights := by
  rw [pruneThrough_eq]

theorem packagesAt_pruneThrough (b : Buffer) (height k : UInt64) :
    (b.pruneThrough height).packagesAt k = if height < k then b.packagesAt k else [] := by
  rw [packagesAt_eq, packagesAt_eq, pruneThrough_eq, Std.ExtTreeMap.getElem?_filter']
  by_cases h : height < k
  · cases b.waiting[k]? <;> simp [h, Option.filter]
  · cases b.waiting[k]? <;> simp [h, Option.filter]

def put (b : Buffer) (height : UInt64) (packages : List Package) : Buffer :=
  { b with waiting := b.waiting.insert height packages }

theorem packagesAt_put (b : Buffer) (height k : UInt64) (packages : List Package) :
    (b.put height packages).packagesAt k = if height = k then packages else b.packagesAt k := by
  rw [packagesAt_eq, packagesAt_eq, put, Std.ExtTreeMap.getElem?_insert]
  simp only [Std.LawfulEqCmp.compare_eq_iff_eq]
  split_ifs <;> rfl

def giveUp (b : Buffer) (height : UInt64) : Buffer := { b with waiting := b.waiting.erase height }

theorem packagesAt_giveUp (b : Buffer) {height k : UInt64} (hne : height ≠ k) :
    (b.giveUp height).packagesAt k = b.packagesAt k := by
  rw [packagesAt_eq, packagesAt_eq, giveUp, Std.ExtTreeMap.getElem?_erase]
  simp only [Std.LawfulEqCmp.compare_eq_iff_eq, hne, if_false]

end Heights

section Room

variable {room : Buffer} {height k : UInt64}

/-- As many heights as fit are taken, all of them below `height`. -/
structure Crowded (b : Buffer) (height : UInt64) : Prop where
  full : b.maxHeights ≤ b.waiting.size
  below : ∀ k ∈ b.waiting, k < height

/-- How a place for a height is found: it is there, or the highest height is given up for it. -/
inductive MakesRoom (b : Buffer) (height : UInt64) : Buffer → Prop
  | there : height ∈ b.waiting ∨ b.waiting.size < b.maxHeights → MakesRoom b height b
  | givenUp {highest : UInt64} : height ∉ b.waiting → b.maxHeights ≤ b.waiting.size →
      highest ∈ b.waiting → (∀ k ∈ b.waiting, k ≤ highest) → height < highest →
      MakesRoom b height (b.giveUp highest)

/-- There is a place for a height unless the buffer is crowded below it. -/
theorem makeRoom?_cases (b : Buffer) (height : UInt64) :
    (∃ room, b.makeRoom? height = some room ∧ b.MakesRoom height room) ∨
      b.makeRoom? height = none ∧ b.Crowded height := by
  unfold makeRoom?
  split_ifs with hthere
  · rw [← Std.ExtTreeMap.mem_iff_contains] at hthere
    exact Or.inl ⟨b, rfl, .there hthere⟩
  · rw [not_or, ← Std.ExtTreeMap.mem_iff_contains, Nat.not_lt] at hthere
    obtain ⟨hnew, hfull⟩ := hthere
    split
    · rename_i highest hmax
      obtain ⟨hmem, hcompare⟩ := Std.ExtTreeMap.maxKey?_eq_some_iff_mem_and_forall.mp hmax
      have hle : ∀ k ∈ b.waiting, k ≤ highest := fun k hk => Std.isLE_compare.mp (hcompare k hk)
      split_ifs with hlt
      · exact Or.inl ⟨_, rfl, .givenUp hnew hfull hmem hle hlt⟩
      · refine Or.inr ⟨rfl, hfull, fun k hk => ?_⟩
        have hkle : k ≤ height := UInt64.le_trans (hle k hk) (UInt64.not_lt.mp hlt)
        exact UInt64.lt_of_le_of_ne hkle fun heq => hnew (heq ▸ hk)
    · rename_i hmax
      rw [Std.ExtTreeMap.maxKey?_eq_none_iff] at hmax
      refine Or.inr ⟨rfl, hfull, fun k hk => ?_⟩
      rw [hmax] at hk
      exact absurd hk Std.ExtTreeMap.not_mem_empty

namespace MakesRoom

theorem not_crowded (h : b.MakesRoom height room) : ¬ b.Crowded height := by
  intro hcrowded
  cases h with
  | there hthere =>
    rcases hthere with hmem | hlt
    · exact UInt64.lt_irrefl height (hcrowded.below height hmem)
    · exact Nat.not_lt.mpr hcrowded.full hlt
  | @givenUp highest _ _ hmem _ hlt => exact UInt64.lt_asymm hlt (hcrowded.below highest hmem)

theorem maxPerHeight_eq (h : b.MakesRoom height room) : room.maxPerHeight = b.maxPerHeight := by
  cases h <;> rfl

theorem maxHeights_eq (h : b.MakesRoom height room) : room.maxHeights = b.maxHeights := by
  cases h <;> rfl

theorem packagesAt_eq (h : b.MakesRoom height room) (hk : k ≤ height) :
    room.packagesAt k = b.packagesAt k := by
  cases h with
  | there _ => rfl
  | @givenUp highest _ _ _ _ hlt =>
    apply b.packagesAt_giveUp
    rintro rfl
    exact absurd hk (UInt64.not_le.mpr hlt)

theorem eq_of_mem (h : b.MakesRoom height room) (hp : p ∈ b.packagesAt height) : room = b := by
  cases h with
  | there _ => rfl
  | givenUp hnew _ _ _ _ =>
    rw [packagesAt_of_not_mem hnew] at hp
    cases hp

end MakesRoom

end Room

inductive Stores (b : Buffer) (p : Package) : Buffer × Admission → Prop
  | duplicate : p ∈ b.packagesAt p.height → Stores b p (b, .duplicate)
  | replaced : b.maxPerHeight ≤ (b.packagesAt p.height).length → p ∉ b.packagesAt p.height →
      Stores b p (b.put p.height ((b.packagesAt p.height).tail ++ [p]), .replaced)
  | buffered : (b.packagesAt p.height).length < b.maxPerHeight → p ∉ b.packagesAt p.height →
      Stores b p (b.put p.height (b.packagesAt p.height ++ [p]), .buffered)

theorem stores (b : Buffer) (p : Package) : b.Stores p (b.store p) := by
  unfold store
  dsimp only
  split_ifs with hmem hfull
  · exact .duplicate hmem
  · exact .replaced hfull hmem
  · exact .buffered (Nat.not_le.mp hfull) hmem

theorem add_cases (b : Buffer) (p : Package) :
    (∃ room, b.MakesRoom p.height room ∧ b.add p = room.store p) ∨
      b.Crowded p.height ∧ b.add p = (b, .tooFar) := by
  rcases b.makeRoom?_cases p.height with ⟨room, heq, hroom⟩ | ⟨heq, hcrowded⟩
  · exact Or.inl ⟨room, hroom, by rw [add, heq]⟩
  · exact Or.inr ⟨hcrowded, by rw [add, heq]⟩

inductive Adds (b : Buffer) (p : Package) : Buffer × Admission → Prop
  | refused : b.Crowded p.height → Adds b p (b, .tooFar)
  | taken {room : Buffer} {result : Buffer × Admission} : b.MakesRoom p.height room →
      room.Stores p result → Adds b p result

theorem adds (b : Buffer) (p : Package) : b.Adds p (b.add p) := by
  rcases b.add_cases p with ⟨room, hroom, heq⟩ | ⟨hcrowded, heq⟩
  · rw [heq]
    exact .taken hroom (room.stores p)
  · rw [heq]
    exact .refused hcrowded

@[simp] theorem maxPerHeight_add (b : Buffer) (p : Package) :
    (b.add p).1.maxPerHeight = b.maxPerHeight := by
  have h := b.adds p
  generalize b.add p = result at h ⊢
  cases h with
  | refused _ => rfl
  | taken hroom hstores =>
    rw [← hroom.maxPerHeight_eq]
    cases hstores <;> rfl

/-- The package waits at its height, with at most so many packages behind it. -/
def Waits (b : Buffer) (p : Package) (behind : Nat) : Prop :=
  ∃ older newer, b.packagesAt p.height = older ++ p :: newer ∧ newer.length ≤ behind

theorem Waits.mem (h : b.Waits p behind) : p ∈ b.packagesAt p.height := by
  obtain ⟨older, newer, hheld, -⟩ := h
  rw [hheld]
  exact List.mem_append_right older List.mem_cons_self

theorem Waits.mono {more : Nat} (h : b.Waits p behind) (hle : behind ≤ more) : b.Waits p more := by
  obtain ⟨older, newer, hheld, hlen⟩ := h
  exact ⟨older, newer, hheld, hlen.trans hle⟩

theorem Waits.of_packagesAt {c : Buffer} (h : b.Waits p behind)
    (heq : c.packagesAt p.height = b.packagesAt p.height) : c.Waits p behind := by
  rw [Waits, heq]
  exact h

theorem waits_put_append (b : Buffer) (p : Package) (held : List Package) :
    (b.put p.height (held ++ [p])).Waits p 0 :=
  ⟨held, [], by rw [packagesAt_put, if_pos rfl], le_rfl⟩

theorem waits_of_add (h : (b.add p).2 = .buffered ∨ (b.add p).2 = .replaced) :
    (b.add p).1.Waits p 0 := by
  have hadds := b.adds p
  generalize b.add p = result at h hadds ⊢
  cases hadds with
  | refused _ => simp at h
  | taken _ hstores =>
    cases hstores with
    | duplicate _ => simp at h
    | replaced _ => exact waits_put_append _ _ _
    | buffered => exact waits_put_append _ _ _

theorem mem_of_add_duplicate (h : (b.add p).2 = .duplicate) :
    p ∈ b.packagesAt p.height ∧ (b.add p).1 = b := by
  have hadds := b.adds p
  generalize b.add p = result at h hadds ⊢
  cases hadds with
  | refused _ => cases h
  | taken hroom hstores =>
    cases hstores with
    | duplicate hmem =>
      rw [hroom.packagesAt_eq (UInt64.le_refl _)] at hmem
      exact ⟨hmem, hroom.eq_of_mem hmem⟩
    | replaced _ => cases h
    | buffered => cases h

/-- A package that comes later at the same height drives out an older one at most, unless
the height is full of newer ones. -/
theorem Waits.store (h : b.Waits p behind) (hheight : q.height = p.height)
    (hfits : behind + 1 < b.maxPerHeight) : (b.store q).1.Waits p (behind + 1) := by
  obtain ⟨older, newer, hheld, hlen⟩ := h
  have hstores := b.stores q
  generalize b.store q = result at hstores ⊢
  cases hstores with
  | duplicate _ => exact ⟨older, newer, hheld, Nat.le_succ_of_le hlen⟩
  | replaced hfull =>
    rw [hheight, hheld] at hfull ⊢
    cases older with
    | nil =>
      rw [List.nil_append, List.length_cons] at hfull
      omega
    | cons oldest older =>
      refine ⟨older, newer ++ [q], ?_, ?_⟩
      · rw [packagesAt_put, if_pos rfl, List.cons_append, List.tail_cons, List.append_assoc,
          List.cons_append]
      · rw [List.length_append, List.length_singleton]
        omega
  | buffered =>
    rw [hheight, hheld]
    refine ⟨older, newer ++ [q], ?_, ?_⟩
    · rw [packagesAt_put, if_pos rfl, List.append_assoc, List.cons_append]
    · rw [List.length_append, List.length_singleton]
      omega

theorem packagesAt_store_of_ne {height : UInt64} (hne : q.height ≠ height) :
    (b.store q).1.packagesAt height = b.packagesAt height := by
  have hstores := b.stores q
  generalize b.store q = result at hstores ⊢
  cases hstores with
  | duplicate _ => rfl
  | replaced _ => rw [packagesAt_put, if_neg hne]
  | buffered => rw [packagesAt_put, if_neg hne]

theorem Waits.add (h : b.Waits p behind) (hq : p.height ≤ q.height)
    (hfits : q.height = p.height → behind + 1 < b.maxPerHeight) :
    (b.add q).1.Waits p (behind + if q.height = p.height then 1 else 0) := by
  rcases b.add_cases q with ⟨room, hroom, heq⟩ | ⟨-, heq⟩
  · rw [heq]
    have hwaits : room.Waits p behind := h.of_packagesAt (hroom.packagesAt_eq hq)
    rw [← hroom.maxPerHeight_eq] at hfits
    split_ifs with hheight
    · exact hwaits.store hheight (hfits hheight)
    · exact hwaits.of_packagesAt (packagesAt_store_of_ne hheight)
  · rw [heq]
    exact h.mono (Nat.le_add_right _ _)

end Buffer
end BundleTracker
