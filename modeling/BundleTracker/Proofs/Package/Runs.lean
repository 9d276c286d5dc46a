import Mathlib.Tactic
import Mathlib.Data.List.DropRight
import BundleTracker.Proofs.Package.Heights

/-!
# What a buffer holds over a run

Whatever is done to an empty buffer, it holds packages at no more heights than fit, and at each of
them some distinct packages for that height, no more than fit. A package that is taken in goes
behind those of its height and drives out the oldest one at most, and a new height drives out the
highest one at most. So as long as a height is not dropped, what waits there is the latest of the
packages that were stored there.
-/

namespace BundleTracker
namespace Buffer

variable {b : Buffer} {p : Package} {height k : UInt64}

inductive Operation
  | add (p : Package)
  | pruneThrough (height : UInt64)
  | clear

def perform (b : Buffer) : Operation → Buffer
  | .add p => (b.add p).1
  | .pruneThrough height => b.pruneThrough height
  | .clear => b.clear

def run (b : Buffer) (operations : List Operation) : Buffer := operations.foldl perform b

section Order

/-- Heights and packages are no more than fit, the packages at one height are distinct and for that
height, and every height that is kept has some. -/
structure Orderly (b : Buffer) : Prop where
  filed : b.Filed
  distinct : ∀ height, (b.packagesAt height).Nodup
  fits : ∀ height, (b.packagesAt height).length ≤ b.maxPerHeight
  places : b.waiting.size ≤ b.maxHeights

namespace Orderly

theorem empty (h : b.waiting = ∅) : b.Orderly := by
  have hnone : ∀ height, b.packagesAt height = [] := by
    intro height
    rw [packagesAt_eq, h, Std.ExtTreeMap.getElem?_empty, Option.getD_none]
  refine ⟨.empty h, fun height => ?_, fun height => ?_, ?_⟩
  · rw [hnone]
    exact List.nodup_nil
  · rw [hnone]
    exact Nat.zero_le _
  · rw [h, Std.ExtTreeMap.size_empty]
    exact Nat.zero_le _

theorem put (h : b.Orderly) {held : List Package} (hfiled : (b.put height held).Filed)
    (hdistinct : held.Nodup) (hfits : held.length ≤ b.maxPerHeight)
    (hplace : height ∈ b.waiting ∨ b.waiting.size < b.maxHeights) :
    (b.put height held).Orderly := by
  refine ⟨hfiled, fun k => ?_, fun k => ?_, ?_⟩
  · rw [packagesAt_put]
    split_ifs
    · exact hdistinct
    · exact h.distinct k
  · rw [packagesAt_put]
    split_ifs
    · exact hfits
    · exact h.fits k
  · rw [← card_heights, heights_put]
    rcases hplace with hmem | hlt
    · rw [Finset.insert_eq_of_mem (mem_heights.mpr hmem), card_heights]
      exact h.places
    · refine (Finset.card_insert_le _ _).trans ?_
      rw [card_heights]
      exact hlt

theorem restrict (h : b.Orderly) {c : Buffer} (hfiled : c.Filed)
    (hper : c.maxPerHeight = b.maxPerHeight) (hmax : c.maxHeights = b.maxHeights)
    (hkept : ∀ k, c.packagesAt k = [] ∨ c.packagesAt k = b.packagesAt k)
    (hsub : c.heights ⊆ b.heights) : c.Orderly := by
  refine ⟨hfiled, fun k => ?_, fun k => ?_, ?_⟩
  · rcases hkept k with hnone | hsame
    · rw [hnone]
      exact List.nodup_nil
    · rw [hsame]
      exact h.distinct k
  · rw [hper]
    rcases hkept k with hnone | hsame
    · rw [hnone]
      exact Nat.zero_le _
    · rw [hsame]
      exact h.fits k
  · have hcard := Finset.card_le_card hsub
    rw [card_heights, card_heights] at hcard
    rw [hmax]
    exact hcard.trans h.places

theorem giveUp (h : b.Orderly) (height : UInt64) : (b.giveUp height).Orderly := by
  refine h.restrict (h.filed.giveUp height) rfl rfl (fun k => ?_) ?_
  · by_cases hk : height = k
    · left
      refine packagesAt_of_not_mem ?_
      rw [← mem_heights, heights_giveUp, hk]
      exact Finset.notMem_erase k _
    · exact Or.inr (b.packagesAt_giveUp hk)
  · rw [heights_giveUp]
    exact Finset.erase_subset _ _

theorem pruneThrough (h : b.Orderly) (height : UInt64) : (b.pruneThrough height).Orderly := by
  refine h.restrict (h.filed.pruneThrough height) (b.maxPerHeight_pruneThrough height)
    (b.maxHeights_pruneThrough height) (fun k => ?_) fun k hk => ?_
  · rw [packagesAt_pruneThrough]
    split_ifs
    · exact Or.inr rfl
    · exact Or.inl rfl
  · exact mem_heights.mpr (mem_waiting_pruneThrough (mem_heights.mp hk)).2

theorem store (h : b.Orderly) (hpos : 1 ≤ b.maxPerHeight)
    (hplace : p.height ∈ b.waiting ∨ b.waiting.size < b.maxHeights) : (b.store p).1.Orderly := by
  have hfiled := h.filed.store p
  have hdistinct := h.distinct p.height
  have hstores := b.stores p
  generalize b.store p = result at hfiled hstores ⊢
  cases hstores with
  | duplicate _ => exact h
  | replaced hfull hnew =>
    refine h.put hfiled ?_ ?_ hplace
    · refine (hdistinct.sublist (List.tail_sublist _)).append (List.nodup_singleton p) ?_
      rw [List.disjoint_singleton]
      exact fun hp => hnew (List.mem_of_mem_tail hp)
    · have hlen := h.fits p.height
      rw [List.length_append, List.length_tail, List.length_singleton]
      omega
  | buffered hroom hnew =>
    refine h.put hfiled ?_ ?_ hplace
    · exact hdistinct.append (List.nodup_singleton p) (List.disjoint_singleton.mpr hnew)
    · rw [List.length_append, List.length_singleton]
      exact hroom

theorem add (h : b.Orderly) (hpos : 1 ≤ b.maxPerHeight) (p : Package) :
    (b.add p).1.Orderly := by
  rcases b.add_cases p with ⟨room, hroom, heq⟩ | ⟨-, heq⟩
  · rw [heq]
    cases hroom with
    | there hplace => exact h.store hpos hplace
    | @givenUp highest _ _ hmem _ _ =>
      refine (h.giveUp highest).store hpos (Or.inr ?_)
      have hcard := Finset.card_erase_lt_of_mem (mem_heights.mpr hmem)
      rw [← heights_giveUp, card_heights, card_heights] at hcard
      exact hcard.trans_le h.places
  · rw [heq]
    exact h

theorem perform (h : b.Orderly) (hpos : 1 ≤ b.maxPerHeight) (operation : Operation) :
    (b.perform operation).Orderly := by
  cases operation with
  | add p => exact h.add hpos p
  | pruneThrough height => exact h.pruneThrough height
  | clear => exact .empty rfl

end Orderly

@[simp] theorem maxPerHeight_perform (b : Buffer) (operation : Operation) :
    (b.perform operation).maxPerHeight = b.maxPerHeight := by
  cases operation with
  | add p => exact b.maxPerHeight_add p
  | pruneThrough height => exact b.maxPerHeight_pruneThrough height
  | clear => rfl

@[simp] theorem maxHeights_perform (b : Buffer) (operation : Operation) :
    (b.perform operation).maxHeights = b.maxHeights := by
  cases operation with
  | add p => exact b.maxHeights_add p
  | pruneThrough height => exact b.maxHeights_pruneThrough height
  | clear => rfl

@[simp] theorem maxPerHeight_run (b : Buffer) (operations : List Operation) :
    (b.run operations).maxPerHeight = b.maxPerHeight := by
  induction operations generalizing b with
  | nil => rfl
  | cons operation rest ih => exact (ih _).trans (b.maxPerHeight_perform operation)

@[simp] theorem maxHeights_run (b : Buffer) (operations : List Operation) :
    (b.run operations).maxHeights = b.maxHeights := by
  induction operations generalizing b with
  | nil => rfl
  | cons operation rest ih => exact (ih _).trans (b.maxHeights_perform operation)

theorem Orderly.run (h : b.Orderly) (hpos : 1 ≤ b.maxPerHeight) (operations : List Operation) :
    (b.run operations).Orderly := by
  induction operations generalizing b with
  | nil => exact h
  | cons operation rest ih =>
    exact ih (h.perform hpos operation) (by rwa [maxPerHeight_perform])

end Order

section Answers

/-- How the heights other than `height` come out of taking in a package for it: as they were, if
there was a place for `height`, or else without the highest one, which is above `height`. -/
inductive LeavesOthers (b : Buffer) (height : UInt64) (after : Buffer) : Prop
  | there : height ∈ b.waiting ∨ b.waiting.size < b.maxHeights →
      (∀ k, k ≠ height → after.waiting[k]? = b.waiting[k]?) → LeavesOthers b height after
  | givenUp {highest : UInt64} : height ∉ b.waiting → b.maxHeights ≤ b.waiting.size →
      highest ∈ b.waiting → (∀ k ∈ b.waiting, k ≤ highest) → height < highest →
      highest ∉ after.waiting →
      (∀ k, k ≠ height → k ≠ highest → after.waiting[k]? = b.waiting[k]?) →
      LeavesOthers b height after

/-- What handing in a package does, with each answer. -/
inductive Answers (b : Buffer) (p : Package) : Buffer → Admission → Prop
  | tooFar : b.Crowded p.height → Answers b p b .tooFar
  | duplicate : p ∈ b.packagesAt p.height → Answers b p b .duplicate
  | buffered {after : Buffer} : p ∉ b.packagesAt p.height →
      (b.packagesAt p.height).length < b.maxPerHeight →
      after.packagesAt p.height = b.packagesAt p.height ++ [p] →
      b.LeavesOthers p.height after → Answers b p after .buffered
  | replaced {after : Buffer} {oldest : Package} {rest : List Package} :
      p ∉ b.packagesAt p.height → b.packagesAt p.height = oldest :: rest →
      b.maxPerHeight ≤ (oldest :: rest).length → after.packagesAt p.height = rest ++ [p] →
      b.LeavesOthers p.height after → Answers b p after .replaced

theorem getElem?_put_of_ne (b : Buffer) {height k : UInt64} (hne : k ≠ height)
    (held : List Package) : (b.put height held).waiting[k]? = b.waiting[k]? := by
  rw [put, Std.ExtTreeMap.getElem?_insert]
  simp only [Std.LawfulEqCmp.compare_eq_iff_eq, hne.symm, if_false]

theorem MakesRoom.leavesOthers {room : Buffer} (h : b.MakesRoom height room)
    (held : List Package) : b.LeavesOthers height (room.put height held) := by
  cases h with
  | there hplace => exact .there hplace fun k hk => b.getElem?_put_of_ne hk held
  | @givenUp highest hnew hfull hmem hle hlt =>
    refine .givenUp hnew hfull hmem hle hlt ?_ fun k hk hhighest => ?_
    · rw [← mem_heights, heights_put, heights_giveUp, Finset.mem_insert, not_or]
      exact ⟨fun heq => UInt64.lt_irrefl _ (heq ▸ hlt), Finset.notMem_erase highest _⟩
    · rw [getElem?_put_of_ne _ hk, Buffer.giveUp, Std.ExtTreeMap.getElem?_erase]
      simp only [Std.LawfulEqCmp.compare_eq_iff_eq, hhighest.symm, if_false]

theorem LeavesOthers.packagesAt_eq {after : Buffer} (h : b.LeavesOthers height after)
    (hne : k ≠ height) (hkeeps : k ∈ b.waiting → k ∈ after.waiting) :
    after.packagesAt k = b.packagesAt k := by
  cases h with
  | there _ hsame => rw [Buffer.packagesAt_eq, Buffer.packagesAt_eq, hsame k hne]
  | @givenUp highest _ _ hmem _ _ hgone hsame =>
    have hhighest : k ≠ highest := by
      rintro rfl
      exact hgone (hkeeps hmem)
    rw [Buffer.packagesAt_eq, Buffer.packagesAt_eq, hsame k hne hhighest]

theorem answers (hpos : 1 ≤ b.maxPerHeight) (p : Package) :
    b.Answers p (b.add p).1 (b.add p).2 := by
  have hadds := b.adds p
  generalize b.add p = result at hadds ⊢
  cases hadds with
  | refused hcrowded => exact .tooFar hcrowded
  | @taken room _ hroom hstores =>
    have hsame := hroom.packagesAt_eq (UInt64.le_refl p.height)
    have hper := hroom.maxPerHeight_eq
    cases hstores with
    | duplicate hmem =>
      rw [hsame] at hmem
      obtain rfl := hroom.eq_of_mem hmem
      exact .duplicate hmem
    | replaced hfull hnew =>
      rw [hsame] at hfull hnew ⊢
      rw [hper] at hfull
      cases hheld : b.packagesAt p.height with
      | nil =>
        rw [hheld] at hfull
        exact absurd (hpos.trans hfull) (by simp)
      | cons oldest rest =>
        rw [hheld] at hfull
        refine .replaced hnew hheld hfull ?_ (hroom.leavesOthers _)
        rw [packagesAt_put, if_pos rfl, List.tail_cons]
    | buffered hspace hnew =>
      rw [hsame] at hspace hnew ⊢
      rw [hper] at hspace
      refine .buffered hnew hspace ?_ (hroom.leavesOthers _)
      rw [packagesAt_put, if_pos rfl]

/-- A height is dropped if it is given up for a lower one, pruned or cleared. -/
theorem drop_cases {operation : Operation} (hheld : height ∈ b.waiting)
    (hgone : height ∉ (b.perform operation).waiting) :
    (∃ p, operation = .add p ∧ p.height ∉ b.waiting ∧ b.maxHeights ≤ b.waiting.size ∧
      (∀ k ∈ b.waiting, k ≤ height) ∧ p.height < height) ∨
    (∃ k, operation = .pruneThrough k ∧ height ≤ k) ∨ operation = .clear := by
  cases operation with
  | add p =>
    left
    rcases b.add_cases p with ⟨room, hroom, heq⟩ | ⟨-, heq⟩
    · rw [perform, heq, ← mem_heights, heights_store, Finset.mem_insert, not_or] at hgone
      cases hroom with
      | there _ => exact absurd (mem_heights.mpr hheld) hgone.2
      | @givenUp highest hnew hfull _ hle hlt =>
        obtain rfl : height = highest := by
          by_contra hne
          refine hgone.2 ?_
          rw [heights_giveUp]
          exact Finset.mem_erase.mpr ⟨hne, mem_heights.mpr hheld⟩
        exact ⟨p, rfl, hnew, hfull, hle, hlt⟩
    · rw [perform, heq] at hgone
      exact absurd hheld hgone
  | pruneThrough k =>
    right; left
    refine ⟨k, rfl, UInt64.not_lt.mp fun hlt => hgone ?_⟩
    exact mem_waiting_pruneThrough_iff.mpr ⟨hlt, hheld⟩
  | clear => exact Or.inr (Or.inr rfl)

end Answers

section Queue

def storedBy (b : Buffer) (height : UInt64) : Operation → List Package
  | .add p =>
    if p.height = height ∧ ((b.add p).2 = .buffered ∨ (b.add p).2 = .replaced) then [p] else []
  | .pruneThrough _ => []
  | .clear => []

/-- The packages that are stored at a height over a run, in their order. -/
def stored (height : UInt64) : Buffer → List Operation → List Package
  | _, [] => []
  | b, operation :: rest =>
    b.storedBy height operation ++ stored height (b.perform operation) rest

/-- Whether a height is never dropped over a run. -/
def Keeps (height : UInt64) : Buffer → List Operation → Prop
  | _, [] => True
  | b, operation :: rest =>
    (height ∈ b.waiting → height ∈ (b.perform operation).waiting) ∧
      Keeps height (b.perform operation) rest

instance decidableKeeps (height : UInt64) :
    (b : Buffer) → (operations : List Operation) → Decidable (b.Keeps height operations)
  | _, [] => isTrue trivial
  | b, operation :: rest =>
    have := decidableKeeps height (b.perform operation) rest
    inferInstanceAs (Decidable (_ ∧ _))

theorem rtake_of_length_le {α : Type} {xs : List α} {count : Nat} (h : xs.length ≤ count) :
    xs.rtake count = xs := by
  rw [List.rtake, Nat.sub_eq_zero_of_le h, List.drop_zero]

theorem rtake_rtake_append {α : Type} (count : Nat) (xs ys : List α) :
    (xs.rtake count ++ ys).rtake count = (xs ++ ys).rtake count := by
  simp only [List.rtake_eq_reverse_take_reverse, List.reverse_append, List.reverse_reverse,
    List.take_append, List.take_take]
  congr 3
  omega

theorem packagesAt_perform (h : b.Orderly) (hpos : 1 ≤ b.maxPerHeight) {operation : Operation}
    (hkeeps : height ∈ b.waiting → height ∈ (b.perform operation).waiting) :
    (b.perform operation).packagesAt height =
      (b.packagesAt height ++ b.storedBy height operation).rtake b.maxPerHeight := by
  have hfits := h.fits height
  cases operation with
  | add p =>
    have hanswers := answers hpos p
    rw [perform] at hkeeps
    rw [perform, storedBy]
    generalize (b.add p).1 = after at hkeeps hanswers ⊢
    generalize (b.add p).2 = answer at hanswers ⊢
    by_cases hp : p.height = height
    · subst hp
      cases hanswers with
      | tooFar _ => simp [rtake_of_length_le hfits]
      | duplicate _ => simp [rtake_of_length_le hfits]
      | buffered _ hspace hafter _ =>
        rw [if_pos ⟨rfl, Or.inl rfl⟩, hafter, rtake_of_length_le]
        rw [List.length_append, List.length_singleton]
        exact hspace
      | @replaced _ oldest rest _ hheld hfull hafter _ =>
        rw [hheld] at hfits ⊢
        have hone : (oldest :: rest ++ [p]).length - b.maxPerHeight = 1 := by
          rw [List.length_append, List.length_singleton, Nat.le_antisymm hfits hfull,
            Nat.add_sub_cancel_left]
        rw [if_pos ⟨rfl, Or.inr rfl⟩, hafter, List.rtake, hone]
        rfl
    · rw [if_neg fun hstored => hp hstored.1, List.append_nil, rtake_of_length_le hfits]
      cases hanswers with
      | tooFar _ => rfl
      | duplicate _ => rfl
      | buffered _ _ _ hothers => exact hothers.packagesAt_eq (Ne.symm hp) hkeeps
      | replaced _ _ _ _ hothers => exact hothers.packagesAt_eq (Ne.symm hp) hkeeps
  | pruneThrough k =>
    rw [storedBy, List.append_nil, rtake_of_length_le hfits, perform, packagesAt_pruneThrough]
    split_ifs with hlt
    · rfl
    · refine (packagesAt_of_not_mem fun hheld => hlt ?_).symm
      exact (mem_waiting_pruneThrough (hkeeps hheld)).1
  | clear =>
    rw [storedBy, List.append_nil, rtake_of_length_le hfits]
    have hgone : height ∉ b.clear.waiting := Std.ExtTreeMap.not_mem_empty
    rw [perform, packagesAt_of_not_mem hgone]
    exact (packagesAt_of_not_mem fun hheld => hgone (hkeeps hheld)).symm

/-- As long as a height is not dropped, the latest of the packages that were stored there wait. -/
theorem packagesAt_run (h : b.Orderly) (hpos : 1 ≤ b.maxPerHeight) {operations : List Operation}
    (hkeeps : b.Keeps height operations) :
    (b.run operations).packagesAt height =
      (b.packagesAt height ++ b.stored height operations).rtake b.maxPerHeight := by
  induction operations generalizing b with
  | nil =>
    rw [stored, List.append_nil]
    exact (rtake_of_length_le (h.fits height)).symm
  | cons operation rest ih =>
    obtain ⟨hstep, hrest⟩ := hkeeps
    have hper := b.maxPerHeight_perform operation
    have hrun := ih (h.perform hpos operation) (by rwa [hper]) hrest
    rw [hper, packagesAt_perform h hpos hstep, rtake_rtake_append, List.append_assoc] at hrun
    exact hrun

theorem mem_packagesAt_run (h : b.Orderly) (hpos : 1 ≤ b.maxPerHeight)
    (hadmitted : (b.add p).2 = .buffered ∨ (b.add p).2 = .replaced) {further : List Operation}
    (hkeeps : (b.add p).1.Keeps p.height further)
    (hfew : ((b.add p).1.stored p.height further).length < b.maxPerHeight) :
    p ∈ ((b.add p).1.run further).packagesAt p.height := by
  obtain ⟨older, newer, hheld, hnewer⟩ := waits_of_add hadmitted
  obtain rfl : newer = [] := List.length_eq_zero_iff.mp (Nat.le_zero.mp hnewer)
  have hper := b.maxPerHeight_add p
  rw [packagesAt_run (h.add hpos p) (by rwa [hper]) hkeeps, hheld, hper, List.append_assoc,
    List.singleton_append, List.rtake, List.drop_append_of_le_length]
  · exact List.mem_append_right _ List.mem_cons_self
  · rw [List.length_append, List.length_cons]
    omega

end Queue

/-- What a buffer does over any run, with room for one package at least at each height. It holds
packages at no more heights than fit, and at each of them some distinct packages for that height, no
more than fit. Each answer says what became of the package and of the others. A height is dropped by
being given up for a lower one, pruned or cleared only, and as long as it is not, the latest of the
packages that were stored there wait; so a package stays until it is driven out by as many further
ones as fit. Pruning drops the heights up to and including the given one, and no others. -/
theorem holds_the_latest {maxPerHeight maxHeights : Nat} (hpos : 1 ≤ maxPerHeight)
    (operations : List Operation) :
    let b := (⟨maxPerHeight, maxHeights, ∅⟩ : Buffer).run operations
    (∀ (height : UInt64) (held : List Package), b.waiting[height]? = some held →
      held ≠ [] ∧ held.length ≤ maxPerHeight ∧ held.Nodup ∧ ∀ p ∈ held, p.height = height) ∧
    b.waiting.size ≤ maxHeights ∧
    (∀ p, b.Answers p (b.add p).1 (b.add p).2) ∧
    (∀ (height : UInt64) (operation : Operation), height ∈ b.waiting →
      height ∉ (b.perform operation).waiting →
      (∃ p, operation = .add p ∧ p.height ∉ b.waiting ∧ maxHeights ≤ b.waiting.size ∧
        (∀ k ∈ b.waiting, k ≤ height) ∧ p.height < height) ∨
      (∃ k, operation = .pruneThrough k ∧ height ≤ k) ∨ operation = .clear) ∧
    (∀ height further, b.Keeps height further →
      (b.run further).packagesAt height =
        (b.packagesAt height ++ b.stored height further).rtake maxPerHeight) ∧
    (∀ p, (b.add p).2 = .buffered ∨ (b.add p).2 = .replaced →
      ∀ further, (b.add p).1.Keeps p.height further →
        ((b.add p).1.stored p.height further).length < maxPerHeight →
        p ∈ ((b.add p).1.run further).packagesAt p.height) ∧
    ∀ height k, (b.pruneThrough height).waiting[k]? =
      if height < k then b.waiting[k]? else none := by
  intro b
  have hper : b.maxPerHeight = maxPerHeight := maxPerHeight_run _ operations
  have hmax : b.maxHeights = maxHeights := maxHeights_run _ operations
  have hb : b.Orderly := (Orderly.empty rfl).run hpos operations
  clear_value b
  subst hper hmax
  refine ⟨fun height held hheld => ?_, hb.places, answers hpos,
    fun _ _ => drop_cases, fun _ _ => packagesAt_run hb hpos,
    fun _ hadmitted _ => mem_packagesAt_run hb hpos hadmitted, fun height k => ?_⟩
  · obtain ⟨hne, hheights⟩ := hb.filed hheld
    have hdistinct := hb.distinct height
    have hfits := hb.fits height
    rw [packagesAt_eq, hheld, Option.getD_some] at hdistinct hfits
    exact ⟨hne, hfits, hdistinct, hheights⟩
  · rw [pruneThrough_eq, Std.ExtTreeMap.getElem?_filter']
    by_cases h : height < k <;> cases b.waiting[k]? <;> simp [h, Option.filter]

/-- A package that drives out the oldest one of its height stays behind a further one, over the
pruning of a lower height. -/
theorem holds_the_latest_two :
    let update (score : Int32) : Update := ⟨⟨0, Block.zero 32⟩, score⟩
    let operations : List Operation :=
      [.add ⟨5, [update 1]⟩, .add ⟨3, []⟩, .add ⟨5, [update 2]⟩]
    let b := (⟨2, 2, ∅⟩ : Buffer).run operations
    let p : Package := ⟨5, [update 3]⟩
    let further : List Operation := [.add ⟨5, [update 4]⟩, .pruneThrough 4, .add ⟨9, []⟩]
    1 ≤ 2 ∧ (b.add p).2 = .replaced ∧ (b.add p).1.Keeps p.height further ∧
      ((b.add p).1.stored p.height further).length < 2 ∧
      p ∈ ((b.add p).1.run further).packagesAt p.height := by
  intro update operations b p further
  have hadmitted : (b.add p).2 = .replaced := by decide +kernel
  have hkeeps : (b.add p).1.Keeps p.height further := by decide +kernel
  have hfew : ((b.add p).1.stored p.height further).length < 2 := by decide +kernel
  obtain ⟨-, -, -, -, -, hstays, -⟩ :=
    @holds_the_latest 2 2 (by decide) operations
  exact ⟨by decide, hadmitted, hkeeps, hfew, hstays p (Or.inr hadmitted) further hkeeps hfew⟩

end Buffer
end BundleTracker
