import Mathlib.Tactic
import BundleTracker.Text.Json.Printer

/-!
# Runs of characters and decimal numbers

A run of characters of one kind is taken off a text whole if the text does not go on with another
character of that kind. Numbers are written as such runs: the digits of a number have its value and
no needless zero in front.
-/

namespace BundleTracker

namespace Text

/-- Whether a text does not begin with a character of some kind. -/
def StopsAt (p : Char → Bool) (rest : List Char) : Prop := ∀ c ∈ rest.head?, p c = false

variable {p : Char → Bool} {c : Char} {run rest : List Char}

theorem ne_of_kind (hc : p c = true) {d : Char} (hd : p d = false) : c ≠ d := by
  rintro rfl
  rw [hc] at hd
  cases hd

theorem stopsAt_nil : StopsAt p [] := nofun

theorem stopsAt_cons (h : p c = false) : StopsAt p (c :: rest) := by
  rintro c' ⟨⟩
  exact h

theorem StopsAt.ne_cons (h : StopsAt p rest) (hc : p c = true) (more : List Char) :
    rest ≠ c :: more := by
  rintro rfl
  rw [h c rfl] at hc
  cases hc

theorem takeWhile_append (hrun : ∀ c ∈ run, p c = true) (hrest : StopsAt p rest) :
    (run ++ rest).takeWhile p = run := by
  have hnil : rest.takeWhile p = [] := by
    cases rest with
    | nil => rfl
    | cons c cs => exact List.takeWhile_cons_of_neg (by simp [hrest c rfl])
  rw [List.takeWhile_append_of_pos hrun, hnil, List.append_nil]

theorem dropWhile_eq_self (hrest : StopsAt p rest) : rest.dropWhile p = rest := by
  cases rest with
  | nil => rfl
  | cons c cs => exact List.dropWhile_cons_of_neg (by simp [hrest c rfl])

theorem dropWhile_append (hrun : ∀ c ∈ run, p c = true) (hrest : StopsAt p rest) :
    (run ++ rest).dropWhile p = rest := by
  rw [List.dropWhile_append_of_pos hrun, dropWhile_eq_self hrest]

theorem takeWhile_eq_self (hrun : ∀ c ∈ run, p c = true) : run.takeWhile p = run := by
  have h := takeWhile_append hrun stopsAt_nil
  rwa [List.append_nil] at h

theorem dropWhile_eq_nil (hrun : ∀ c ∈ run, p c = true) : run.dropWhile p = [] := by
  have h := dropWhile_append hrun stopsAt_nil
  rwa [List.append_nil] at h

end Text

namespace Json

variable {c : Char} {m : Nat}

theorem decimalValue_toDigits (m : Nat) : decimalValue (Nat.toDigits 10 m) = m := by
  have h := Nat.ofDigitChars_ten_toDigits (n := m)
  rw [Nat.ofDigitChars_eq_foldl] at h
  exact h

theorem isDigit_eq (c : Char) : isDigit c = c.isDigit := by
  simp [isDigit, Char.isDigit, Char.le_def]

theorem isDigit_of_mem_toDigits (h : c ∈ Nat.toDigits 10 m) : isDigit c = true := by
  rw [isDigit_eq]
  exact Nat.isDigit_of_mem_toDigits (by decide) (by decide) h

theorem eq_zero_of_head?_toDigits (h : (Nat.toDigits 10 m).head? = some '0') : m = 0 := by
  induction m using Nat.strongRecOn with
  | _ m ih =>
    by_cases hm : m < 10
    · rw [Nat.toDigits_of_lt_base hm] at h
      exact Nat.digitChar_eq_zero.mp (Option.some.inj h)
    · rw [Nat.toDigits_of_base_le (by decide) (Nat.not_lt.mp hm),
        List.head?_append_of_ne_nil _ Nat.toDigits_ne_nil] at h
      have hzero := ih (m / 10) (by omega) h
      omega

def opensInteger (c : Char) : Bool := isDigit c || c == '-'

theorem exists_integerText_eq (n : Int) :
    ∃ c cs, integerText n = c :: cs ∧ opensInteger c = true ∧
      ∀ d ∈ cs, isDigit d = true := by
  unfold integerText
  split_ifs
  · exact ⟨'-', _, rfl, rfl, fun d hd => isDigit_of_mem_toDigits hd⟩
  · obtain ⟨c, cs, hdigits⟩ :=
      List.exists_cons_of_ne_nil (Nat.toDigits_ne_nil (n := n.natAbs) (b := 10))
    have hall : ∀ d ∈ c :: cs, isDigit d = true := by
      intro d hd
      rw [← hdigits] at hd
      exact isDigit_of_mem_toDigits hd
    refine ⟨c, cs, hdigits, ?_, fun d hd => hall d (List.mem_cons_of_mem c hd)⟩
    rw [opensInteger, hall c List.mem_cons_self, Bool.true_or]

end Json

end BundleTracker
