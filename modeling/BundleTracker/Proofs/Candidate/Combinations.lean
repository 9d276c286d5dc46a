import Mathlib.Tactic
import Mathlib.Data.Nat.Choose.Basic
import BundleTracker.Candidate.Combination

/-!
# The order of combinations

The combinations that are listed one after the other are the choices of their size, which are
exactly the ascending lists of that many positions. The choices with the first position come first,
and after the last of them the step moves that position on, to the first choice without it. So the
step goes through the choices in their order, without a fault, and stops at the last one.
-/

namespace BundleTracker
namespace Combination

section Choose

variable {α : Type}

/-- The sublists of `size` elements, those with an earlier element first. -/
def choose {α : Type} : Nat → List α → List (List α)
  | 0, _ => [[]]
  | _ + 1, [] => []
  | size + 1, x :: rest => (choose size rest).map (x :: ·) ++ choose (size + 1) rest

theorem mem_choose_iff {size : Nat} {xs l : List α} :
    l ∈ choose size xs ↔ l.Sublist xs ∧ l.length = size := by
  induction xs generalizing size l with
  | nil =>
    cases size with
    | zero => simp [choose]
    | succ size =>
      simp only [choose, List.not_mem_nil, List.sublist_nil, false_iff, not_and]
      rintro rfl
      simp
  | cons x rest ih =>
    cases size with
    | zero =>
      simp only [choose, List.mem_singleton, List.length_eq_zero_iff]
      exact ⟨fun h => ⟨h ▸ List.nil_sublist _, h⟩, And.right⟩
    | succ size =>
      simp only [choose, List.mem_append, List.mem_map, ih]
      constructor
      · rintro (⟨tail, ⟨hsub, hlen⟩, rfl⟩ | ⟨hsub, hlen⟩)
        · exact ⟨hsub.cons_cons x, by rw [List.length_cons, hlen]⟩
        · exact ⟨hsub.cons x, hlen⟩
      · rintro ⟨hsub, hlen⟩
        rcases List.sublist_cons_iff.mp hsub with hrest | ⟨tail, rfl, htail⟩
        · exact Or.inr ⟨hrest, hlen⟩
        · exact Or.inl ⟨tail, ⟨htail, by simpa using hlen⟩, rfl⟩

theorem length_of_mem_choose {size : Nat} {xs l : List α} (h : l ∈ choose size xs) :
    l.length = size :=
  (mem_choose_iff.mp h).2

theorem length_choose (size : Nat) (xs : List α) :
    (choose size xs).length = xs.length.choose size := by
  induction xs generalizing size with
  | nil => cases size <;> rfl
  | cons x rest ih =>
    cases size with
    | zero => simp [choose]
    | succ size =>
      rw [choose, List.length_append, List.length_map, ih, ih, List.length_cons,
        Nat.choose_succ_succ]

theorem choose_one (xs : List α) : choose 1 xs = xs.map fun x => [x] := by
  induction xs with
  | nil => rfl
  | cons x rest ih => simp [choose, ih]

theorem pairwise_choose {xs : List Nat} (hxs : xs.Pairwise (· < ·)) (size : Nat) :
    (choose size xs).Pairwise (List.Lex (· < ·)) := by
  induction xs generalizing size with
  | nil => cases size <;> simp [choose]
  | cons x rest ih =>
    obtain ⟨hx, hrest⟩ := List.pairwise_cons.mp hxs
    cases size with
    | zero => simp [choose]
    | succ size =>
      rw [choose, List.pairwise_append]
      refine ⟨?_, ih hrest (size + 1), ?_⟩
      · exact List.pairwise_map.mpr ((ih hrest size).imp fun h => .cons h)
      · intro a ha b hb
        obtain ⟨tail, -, rfl⟩ := List.mem_map.mp ha
        obtain ⟨hsub, hlen⟩ := mem_choose_iff.mp hb
        cases b with
        | nil => simp at hlen
        | cons y b => exact .rel (hx y (hsub.subset List.mem_cons_self))

end Choose

section Walk

variable {start len size count : Nat} {l : List Nat}

theorem choose_eq_nil (h : len < size) : choose size (List.range' start len) = [] := by
  rw [← List.length_eq_zero_iff, length_choose, List.length_range', Nat.choose_eq_zero_of_lt h]

theorem choose_succ_range' (size start len : Nat) :
    choose (size + 1) (List.range' start (len + 1)) =
      (choose size (List.range' (start + 1) len)).map (start :: ·) ++
        choose (size + 1) (List.range' (start + 1) len) := by
  rw [List.range'_succ, choose]

theorem head?_choose (start : Nat) (h : size ≤ len) :
    (choose size (List.range' start len)).head? = some (List.range' start size) := by
  induction len generalizing start size with
  | zero =>
    obtain rfl : size = 0 := by omega
    rfl
  | succ len ih =>
    cases size with
    | zero => rfl
    | succ size =>
      rw [choose_succ_range', List.head?_append, List.head?_map, ih (start + 1) (by omega),
        List.range'_succ]
      rfl

theorem choose_ne_nil (h : size ≤ len) : choose size (List.range' start len) ≠ [] := by
  intro hnil
  have hhead := head?_choose start h
  rw [hnil] at hhead
  cases hhead

/-- In the last choice no position can move right. -/
theorem advance_of_getLast? (h : size ≤ len)
    (hl : (choose size (List.range' start len)).getLast? = some l) :
    advance (start + len - size) l = none := by
  induction len generalizing start size l with
  | zero =>
    obtain rfl : size = 0 := by omega
    obtain rfl : [] = l := by simpa [choose] using hl
    rfl
  | succ len ih =>
    cases size with
    | zero =>
      obtain rfl : [] = l := by simpa [choose] using hl
      rfl
    | succ size =>
      rw [choose_succ_range', List.getLast?_append] at hl
      rcases Nat.lt_or_ge len (size + 1) with hlt | hle
      · rw [choose_eq_nil hlt, List.getLast?_nil, Option.none_or, List.getLast?_map,
          Option.map_eq_some_iff] at hl
        obtain ⟨tail, htail, rfl⟩ := hl
        have hbound : start + (len + 1) - (size + 1) + 1 = start + 1 + len - size := by omega
        rw [advance, hbound, ih (by omega) htail]
        exact if_neg (by omega)
      · rw [Option.or_of_isSome (List.getLast?_isSome.mpr (choose_ne_nil hle))] at hl
        have hbound : start + (len + 1) - (size + 1) = start + 1 + len - (size + 1) := by omega
        rw [hbound]
        exact ih hle hl

theorem isChain_choose (h : size ≤ len) :
    (choose size (List.range' start len)).IsChain fun a b =>
      advance (start + len - size) a = some b := by
  induction len generalizing start size with
  | zero =>
    obtain rfl : size = 0 := by omega
    exact .singleton _
  | succ len ih =>
    cases size with
    | zero => exact .singleton _
    | succ size =>
      have hinner : start + (len + 1) - (size + 1) + 1 = start + 1 + len - size := by omega
      rw [choose_succ_range', List.isChain_append]
      refine ⟨?_, ?_, ?_⟩
      · rw [List.isChain_map]
        refine (ih (by omega)).imp fun a b hab => ?_
        rw [advance, hinner, hab]
      · rcases Nat.lt_or_ge len (size + 1) with hlt | hle
        · rw [choose_eq_nil hlt]
          exact .nil
        · have hbound : start + (len + 1) - (size + 1) = start + 1 + len - (size + 1) := by omega
          rw [hbound]
          exact ih hle
      · intro a ha b hb
        rw [List.getLast?_map, Option.mem_def, Option.map_eq_some_iff] at ha
        obtain ⟨tail, htail, rfl⟩ := ha
        have hle : size + 1 ≤ len := by
          by_contra hlt
          rw [choose_eq_nil (Nat.not_le.mp hlt)] at hb
          cases hb
        rw [head?_choose _ hle, Option.mem_some_iff] at hb
        rw [advance, hinner, advance_of_getLast? (by omega) htail, ← hb,
          length_of_mem_choose (List.mem_of_getLast? htail)]
        exact if_pos (by omega)

end Walk

section Listing

variable {count size : Nat} {l : List Nat} {rest : List (List Nat)}

/-- What is listed from a combination on are the steps from it to one where nothing moves. -/
theorem listFrom_eq_of_isChain (hcount : l.length ≤ count)
    (hchain : (l :: rest).IsChain fun a b => advance (count - l.length) a = some b)
    (hlast : ∀ last, (l :: rest).getLast? = some last → advance (count - l.length) last = none) :
    listFrom count l = .ok (l :: rest) := by
  induction rest generalizing l with
  | nil =>
    have hstep : next? count l = .ok none := by rw [next?_eq hcount, hlast l rfl]
    rw [listFrom_of_none hstep]
  | cons moved rest ih =>
    obtain ⟨hmoved, hrest⟩ := List.isChain_cons_cons.mp hchain
    have hlength := length_advance hmoved
    have hstep : next? count l = .ok (some moved) := by rw [next?_eq hcount, hmoved]
    rw [← hlength] at hcount hrest hlast
    rw [listFrom_of_some hstep, ih hcount hrest fun last h => hlast last h]
    rfl

theorem list_eq (hsize : 0 < size) : list count size = .ok (choose size (List.range count)) := by
  unfold list
  rw [List.range_eq_range', List.range_eq_range']
  split_ifs with h
  · obtain ⟨rest, hrest⟩ := List.head?_eq_some_iff.mp (head?_choose 0 h.2)
    have hlength : (List.range' 0 size).length = size := List.length_range'
    have hbound : 0 + count - size = count - (List.range' 0 size).length := by omega
    rw [hrest]
    refine listFrom_eq_of_isChain (by omega) ?_ fun last hlast => ?_
    · rw [← hrest, ← hbound]
      exact isChain_choose h.2
    · rw [← hrest] at hlast
      rw [← hbound]
      exact advance_of_getLast? h.2 hlast
  · have hlt : count < size := by omega
    rw [choose_eq_nil hlt]

/-- However many combinations are listed, no step runs into a fault. -/
theorem exists_list_eq_ok (count size : Nat) : ∃ listed, list count size = .ok listed := by
  rcases Nat.eq_zero_or_pos size with rfl | hsize
  · exact ⟨[], rfl⟩
  · exact ⟨_, list_eq hsize⟩

end Listing

end Combination
end BundleTracker
