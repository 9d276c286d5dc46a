/-!
# Combinations of positions

The combinations of one size are the ascending lists of that many positions, from the first
positions on in lexicographic order. The next one is made in place: the last position that can
still move right moves by one, and those behind it close up to it. A step that subtracts below
zero or looks outside of its list is a fault.
-/

namespace BundleTracker

namespace Combination

/-- What a step on a list of positions must not run into. -/
inductive Fault
  | belowZero
  | outside
  deriving DecidableEq

def minus (m n : Nat) : Except Fault Nat := if n ≤ m then .ok (m - n) else .error .belowZero

def read (l : List Nat) (i : Nat) : Except Fault Nat :=
  match l[i]? with
  | some x => .ok x
  | none => .error .outside

def write (l : List Nat) (i x : Nat) : Except Fault (List Nat) :=
  if i < l.length then .ok (l.set i x) else .error .outside

/-- Whether the position at place `i` can still move right. -/
def movable (count : Nat) (l : List Nat) (i : Nat) : Except Fault Bool := do
  let position ← read l i
  let spare ← minus count l.length
  return position < spare + i

/-- The last place with a position that can still move right. -/
def pivot? (count : Nat) (l : List Nat) : Except Fault (Option Nat) :=
  (List.range l.length).reverse.findM? (movable count l)

/-- Puts the position at place `i` right behind the one before it. -/
def closeUp (l : List Nat) (i : Nat) : Except Fault (List Nat) := do
  let before ← read l (← minus i 1)
  write l i (before + 1)

/-- The combination out of `count` positions after `l`, unless `l` is the last one. -/
def next? (count : Nat) (l : List Nat) : Except Fault (Option (List Nat)) := do
  match ← pivot? count l with
  | none => return none
  | some pivot =>
    let moved ← write l pivot ((← read l pivot) + 1)
    let closed ← (List.range' (pivot + 1) (l.length - (pivot + 1))).foldlM closeUp moved
    return some closed

section Step

variable {count bound : Nat} {l : List Nat}

/-- The step by recursion, where the head can move right up to `bound`: what is behind it moves if
it can, or else the head moves. -/
def advance (bound : Nat) : List Nat → Option (List Nat)
  | [] => none
  | x :: rest =>
    match advance (bound + 1) rest with
    | some moved => some (x :: moved)
    | none => if x < bound then some (List.range' (x + 1) (rest.length + 1)) else none

/-- What moves is one position with all that is behind it. -/
theorem advance_eq_some {l' : List Nat} (h : advance bound l = some l') :
    ∃ front x tail, l = front ++ x :: tail ∧ x < bound + front.length ∧
      advance (bound + front.length + 1) tail = none ∧
      l' = front ++ List.range' (x + 1) (tail.length + 1) := by
  induction l generalizing bound l' with
  | nil => cases h
  | cons y rest ih =>
    unfold advance at h
    split at h
    · rename_i moved hmoved
      obtain ⟨front, x, tail, rfl, hx, htail, rfl⟩ := ih hmoved
      obtain rfl := Option.some.inj h
      refine ⟨y :: front, x, tail, rfl, ?_, ?_, rfl⟩
      · rw [List.length_cons]
        omega
      · rwa [List.length_cons, ← Nat.add_assoc, Nat.add_right_comm bound]
    · rename_i hnone
      split at h
      · rename_i hlt
        obtain rfl := Option.some.inj h
        exact ⟨[], y, rest, rfl, hlt, hnone, rfl⟩
      · cases h

/-- Nothing moves if every position is as far right as it can be. -/
theorem le_of_advance_eq_none (h : advance bound l = none) {i x : Nat} (hi : l[i]? = some x) :
    bound + i ≤ x := by
  induction l generalizing bound i with
  | nil => cases hi
  | cons y rest ih =>
    unfold advance at h
    split at h
    · cases h
    · rename_i hnone
      split at h
      · cases h
      · rename_i hle
        cases i with
        | zero =>
          obtain rfl : y = x := by simpa using hi
          omega
        | succ i =>
          have hrest := ih hnone (by simpa using hi)
          omega

theorem movable_eq (hcount : l.length ≤ count) {i x : Nat} (hi : l[i]? = some x) :
    movable count l i = .ok (decide (x < count - l.length + i)) := by
  simp [movable, read, minus, hi, hcount, bind, Except.bind, pure, Except.pure]

theorem findM?_eq {α : Type} {f : α → Except Fault Bool} {p : α → Bool} {xs : List α}
    (h : ∀ x ∈ xs, f x = .ok (p x)) : xs.findM? f = .ok (xs.find? p) := by
  induction xs with
  | nil => rfl
  | cons x rest ih =>
    have hrest := ih fun y hy => h y (List.mem_cons_of_mem x hy)
    rw [List.findM?, h x List.mem_cons_self, List.find?_cons]
    cases p x with
    | true => rfl
    | false => exact hrest

/-- What is found first from behind is the last place that has the property. -/
theorem find?_reverse_range {n i : Nat} {p : Nat → Bool} (hi : i < n) (hp : p i = true)
    (hbehind : ∀ j, i < j → j < n → p j = false) :
    (List.range n).reverse.find? p = some i := by
  induction n with
  | zero => omega
  | succ n ih =>
    rw [List.range_succ, List.reverse_append, List.reverse_singleton, List.singleton_append,
      List.find?_cons]
    by_cases hlast : i = n
    · rw [← hlast, hp]
    · rw [hbehind n (by omega) (by omega)]
      exact ih (by omega) fun j hij hj => hbehind j hij (by omega)

theorem pivot?_eq (hcount : l.length ≤ count) :
    pivot? count l = .ok ((List.range l.length).reverse.find? fun i =>
      decide (l.getD i 0 < count - l.length + i)) := by
  refine findM?_eq fun i hi => ?_
  have hlt : i < l.length := by simpa using hi
  rw [movable_eq hcount (List.getElem?_eq_getElem hlt), List.getD_eq_getElem?_getD,
    List.getElem?_eq_getElem hlt, Option.getD_some]

theorem pivot?_of_advance_eq_none (hcount : l.length ≤ count)
    (h : advance (count - l.length) l = none) : pivot? count l = .ok none := by
  rw [pivot?_eq hcount, List.find?_eq_none.mpr]
  intro i hi
  have hlt : i < l.length := by simpa using hi
  have hle := le_of_advance_eq_none h (List.getElem?_eq_getElem hlt)
  rw [List.getD_eq_getElem?_getD, List.getElem?_eq_getElem hlt, Option.getD_some]
  simpa using hle

theorem pivot?_append_cons {front tail : List Nat} {x : Nat}
    (hcount : (front ++ x :: tail).length ≤ count)
    (hx : x < count - (front ++ x :: tail).length + front.length)
    (htail : advance (count - (front ++ x :: tail).length + front.length + 1) tail = none) :
    pivot? count (front ++ x :: tail) = .ok (some front.length) := by
  rw [pivot?_eq hcount]
  refine congrArg Except.ok (find?_reverse_range (by simp) (by simpa using hx) ?_)
  intro j hj hlt
  obtain ⟨k, rfl⟩ : ∃ k, j = front.length + (k + 1) := ⟨j - front.length - 1, by omega⟩
  have hk : k < tail.length := by
    rw [List.length_append, List.length_cons] at hlt
    omega
  have hle := le_of_advance_eq_none htail (List.getElem?_eq_getElem hk)
  rw [List.length_append, List.length_cons] at hle
  rw [List.getD_eq_getElem?_getD, List.getElem?_append_right (by omega)]
  simp only [List.length_append, List.length_cons, Nat.add_sub_cancel_left,
    List.getElem?_cons_succ, List.getElem?_eq_getElem hk, Option.getD_some, decide_eq_false_iff_not]
  omega

/-- Closing up place after place behind `x` makes a row of successors. -/
theorem foldlM_closeUp (front tail : List Nat) (x : Nat) :
    (List.range' (front.length + 1) tail.length).foldlM closeUp (front ++ x :: tail) =
      .ok (front ++ List.range' x (tail.length + 1)) := by
  induction tail generalizing front x with
  | nil => rfl
  | cons y rest ih =>
    have hstep : closeUp (front ++ x :: y :: rest) (front.length + 1) =
        .ok ((front ++ [x]) ++ (x + 1) :: rest) := by
      simp [closeUp, minus, read, write, bind, Except.bind]
    have hrest := ih (front ++ [x]) (x + 1)
    rw [List.length_append, List.length_singleton] at hrest
    rw [List.length_cons, List.range'_succ, List.foldlM_cons, hstep]
    refine hrest.trans ?_
    rw [List.append_assoc, List.singleton_append, ← List.range'_succ]

/-- As long as there are no more positions than packages, the step in place runs into no fault, and
is the step by recursion. -/
theorem next?_eq (hcount : l.length ≤ count) :
    next? count l = .ok (advance (count - l.length) l) := by
  cases h : advance (count - l.length) l with
  | none =>
    rw [next?, pivot?_of_advance_eq_none hcount h]
    rfl
  | some moved =>
    obtain ⟨front, x, tail, rfl, hx, htail, rfl⟩ := advance_eq_some h
    have hmove : read (front ++ x :: tail) front.length = .ok x ∧
        write (front ++ x :: tail) front.length (x + 1) = .ok (front ++ (x + 1) :: tail) := by
      simp [read, write]
    have hrest : (front ++ x :: tail).length - (front.length + 1) = tail.length := by
      rw [List.length_append, List.length_cons]
      omega
    rw [next?, pivot?_append_cons hcount hx htail]
    simp only [bind, Except.bind, hmove, hrest, foldlM_closeUp]
    rfl

theorem length_advance {moved : List Nat} (h : advance bound l = some moved) :
    moved.length = l.length := by
  obtain ⟨front, x, tail, rfl, -, -, rfl⟩ := advance_eq_some h
  simp

/-- How far the positions can still move right, as the digits of a number to the base `base`, where
the head can move up to `bound`. -/
def slack (base bound : Nat) : List Nat → Nat
  | [] => 0
  | x :: rest => (bound - x) * Nat.pow base rest.length + slack base (bound + 1) rest

theorem slack_lt (base bound : Nat) (l : List Nat) (h : bound + l.length ≤ base) :
    slack base bound l < Nat.pow base l.length := by
  induction l generalizing bound with
  | nil => exact Nat.one_pos
  | cons x rest ih =>
    rw [List.length_cons] at h
    have hrest := ih (bound + 1) (by omega)
    have hdigit : (bound - x + 1) * Nat.pow base rest.length ≤ base * Nat.pow base rest.length :=
      Nat.mul_le_mul_right _ (by omega)
    have hpow : Nat.pow base (rest.length + 1) = base * Nat.pow base rest.length := Nat.mul_comm ..
    rw [slack, List.length_cons, hpow]
    rw [Nat.succ_mul] at hdigit
    omega

/-- The position that moves loses more than those behind it can gain. -/
theorem slack_advance {base : Nat} {moved : List Nat} (h : advance bound l = some moved)
    (hbase : bound + l.length ≤ base) : slack base bound moved < slack base bound l := by
  induction l generalizing bound moved with
  | nil => cases h
  | cons x rest ih =>
    rw [List.length_cons] at hbase
    unfold advance at h
    split at h
    · rename_i moved hmoved
      obtain rfl := Option.some.inj h
      have hrest := ih hmoved (by omega)
      rw [slack, slack, length_advance hmoved]
      omega
    · split at h
      · rename_i hlt
        obtain rfl := Option.some.inj h
        have hrow : slack base (bound + 1) (List.range' (x + 1 + 1) rest.length) <
            Nat.pow base rest.length := by
          have hlt := slack_lt base (bound + 1) (List.range' (x + 1 + 1) rest.length)
            (by rw [List.length_range']; omega)
          rwa [List.length_range'] at hlt
        obtain ⟨spare, hspare⟩ : ∃ spare, bound - x = spare + 1 := ⟨bound - x - 1, by omega⟩
        have hspare' : bound - (x + 1) = spare := by omega
        rw [List.range'_succ, slack, slack, hspare, hspare', List.length_range', Nat.succ_mul]
        omega
      · cases h

/-- A measure of the combinations that come after `l`. -/
def room (count : Nat) (l : List Nat) : Nat := slack (count + 1) (count - l.length) l

/-- With more positions than there is space for, the step subtracts below zero. -/
theorem next?_of_lt (h : count < l.length) : next? count l = .error .belowZero := by
  obtain ⟨last, hlast⟩ : ∃ last, l.length = last + 1 := ⟨l.length - 1, by omega⟩
  have hlt : last < l.length := by omega
  have hmovable : movable count l last = .error .belowZero := by
    simp [movable, read, List.getElem?_eq_getElem hlt, minus, Nat.not_le.mpr h, bind, Except.bind]
  have hpivot : pivot? count l = .error .belowZero := by
    rw [pivot?, hlast, List.range_succ, List.reverse_append, List.reverse_singleton,
      List.singleton_append, List.findM?, hmovable]
    rfl
  rw [next?, hpivot]
  rfl

theorem room_next? {moved : List Nat} (h : next? count l = .ok (some moved)) :
    room count moved < room count l := by
  by_cases hcount : l.length ≤ count
  · rw [next?_eq hcount, Except.ok.injEq] at h
    rw [room, room, length_advance h]
    exact slack_advance h (by omega)
  · rw [next?_of_lt (by omega)] at h
    cases h

end Step

/-- The combination `l` and those after it. -/
def listFrom (count : Nat) (l : List Nat) : Except Fault (List (List Nat)) :=
  match h : next? count l with
  | .error fault => .error fault
  | .ok none => .ok [l]
  | .ok (some moved) =>
    have : room count moved < room count l := room_next? h
    (listFrom count moved).map (l :: ·)
  termination_by room count l

theorem listFrom_of_none {count : Nat} {l : List Nat} (h : next? count l = .ok none) :
    listFrom count l = .ok [l] := by
  unfold listFrom
  split <;> simp_all

theorem listFrom_of_some {count : Nat} {l moved : List Nat}
    (h : next? count l = .ok (some moved)) :
    listFrom count l = (listFrom count moved).map (l :: ·) := by
  rw [listFrom]
  split <;> simp_all

/-- The combinations of `size` out of `count` positions; there is none of no position. -/
def list (count size : Nat) : Except Fault (List (List Nat)) :=
  if 0 < size ∧ size ≤ count then listFrom count (List.range size) else .ok []

end Combination
end BundleTracker
