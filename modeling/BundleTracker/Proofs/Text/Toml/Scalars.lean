import Mathlib.Tactic
import BundleTracker.Proofs.Text.Toml.Strings

/-!
# Reading TOML scalars

A text or an integer at the end of a line is read as it was written. An integer has neither the
signs of a date or a time nor the point or the exponent of a float.
-/

namespace BundleTracker

namespace Toml

open Text

variable {c : Char} {m : Nat} {n : Int} {cs rest : List Char}

section Digits

theorem digit?_of_isDigit (h : Json.isDigit c = true) : digit? 10 c = some (c.toNat - 48) := by
  simp only [Json.isDigit, Bool.and_eq_true, decide_eq_true_eq] at h
  have hlow : 48 ≤ c.toNat := h.1
  have hhigh : c.toNat ≤ 57 := h.2
  rw [digit?, Hex.digit?, if_pos h]
  exact Option.filter_some_pos (by simp; omega)

theorem digitsFrom_of_isDigit (hcs : ∀ c ∈ cs, Json.isDigit c = true) (value : Nat) :
    digitsFrom 10 value cs = some (cs.foldl (fun n c => 10 * n + (c.toNat - 48)) value) := by
  induction cs generalizing value with
  | nil => rfl
  | cons c cs ih =>
    rw [List.forall_mem_cons] at hcs
    rw [digitsFrom, digit?_of_isDigit hcs.1]
    · exact ih hcs.2 _
    · rintro d more rfl
      exact absurd hcs.1 (by decide)

theorem decimal?_toDigits (m : Nat) : decimal? (Nat.toDigits 10 m) = some m := by
  have hdigits : ∀ c ∈ Nat.toDigits 10 m, Json.isDigit c = true :=
    fun c => Json.isDigit_of_mem_toDigits
  have hvalue := Json.decimalValue_toDigits m
  have hzero := Json.eq_zero_of_head?_toDigits (m := m)
  obtain ⟨c, cs, hcons⟩ := List.exists_cons_of_ne_nil (Nat.toDigits_ne_nil (n := m) (b := 10))
  rw [hcons] at hdigits hvalue hzero ⊢
  rw [List.forall_mem_cons] at hdigits
  by_cases hc : c = '0'
  · have hm := hzero (by rw [hc]; rfl)
    rw [hm] at hcons
    rw [← hcons, hm]
    rfl
  · rw [Json.decimalValue, List.foldl_cons, Nat.mul_zero, Nat.zero_add] at hvalue
    rw [decimal?, digits?, digit?_of_isDigit hdigits.1]
    · exact (digitsFrom_of_isDigit hdigits.2 _).trans (congrArg some hvalue)
    · exact fun h => hc (List.cons.inj h).1
    · exact fun _ h => hc (List.cons.inj h).1

end Digits

section Integers

theorem isScalarChar_of_isDigit (h : Json.isDigit c = true) : isScalarChar c = true := by
  rw [Json.isDigit_eq] at h
  simp [isScalarChar, Char.isAlphanum, h]

theorem signed_integerText (n : Int) :
    signed (Json.integerText n) = (decide (n < 0), Nat.toDigits 10 n.natAbs) := by
  rw [Json.integerText]
  split_ifs with h
  · rw [signed, decide_eq_true h]
  · have hdigits : ∀ c ∈ Nat.toDigits 10 n.natAbs, Json.isDigit c = true :=
      fun c => Json.isDigit_of_mem_toDigits
    rw [decide_eq_false h, signed]
    · intro more heq
      exact absurd (hdigits '-' (by simp [heq])) (by decide)
    · intro more heq
      exact absurd (hdigits '+' (by simp [heq])) (by decide)

theorem isDate_cons (hcs : ∀ d ∈ cs, Json.isDigit d = true) : isDate (c :: cs) = false := by
  unfold isDate
  split
  · rename_i heq
    exact absurd (hcs '-' (by simp [(List.cons.inj heq).2])) (by decide)
  · rfl

theorem isTime_cons (hcs : ∀ d ∈ cs, Json.isDigit d = true) : isTime (c :: cs) = false := by
  unfold isTime
  split
  · rename_i heq
    exact absurd (hcs ':' (by simp [(List.cons.inj heq).2])) (by decide)
  · rfl

theorem isMoment_cons (hcs : ∀ d ∈ cs, Json.isDigit d = true) : isMoment (c :: cs) = false := by
  have hfront : isDate ((c :: cs).take 10) = false :=
    isDate_cons fun d hd => hcs d (List.mem_of_mem_take hd)
  rw [isMoment, isDate_cons hcs, isTime_cons hcs, hfront]
  cases (c :: cs).drop 10 <;> rfl

theorem float?_integerText (n : Int) : float? (Json.integerText n) = none := by
  have hdigits : ∀ c ∈ Nat.toDigits 10 n.natAbs, Json.isDigit c = true :=
    fun c => Json.isDigit_of_mem_toDigits
  have hinf : Nat.toDigits 10 n.natAbs ≠ "inf".toList := by
    intro h
    exact absurd (hdigits 'i' (by rw [h]; decide)) (by decide)
  have hnan : Nat.toDigits 10 n.natAbs ≠ "nan".toList := by
    intro h
    exact absurd (hdigits 'n' (by rw [h]; decide)) (by decide)
  have htail :
      (Nat.toDigits 10 n.natAbs).dropWhile (fun c => c != '.' && !isExponentMark c) = [] := by
    refine dropWhile_eq_nil fun c hc => ?_
    simp [isExponentMark, ne_of_kind (hdigits c hc) (d := '.') (by decide),
      ne_of_kind (hdigits c hc) (d := 'e') (by decide),
      ne_of_kind (hdigits c hc) (d := 'E') (by decide)]
  rw [float?, signed_integerText]
  dsimp only
  rw [if_neg (not_or_intro hinf hnan), htail]
  cases decimal? _ <;> rfl

theorem integerText_ne {d e : Char} {more : List Char} (he : Json.isDigit e = false) :
    Json.integerText n ≠ d :: e :: more := by
  obtain ⟨c, cs, htext, -, hdigits⟩ := Json.exists_integerText_eq n
  intro heq
  rw [htext] at heq
  have hdigit := hdigits e (by simp [(List.cons.inj heq).2])
  rw [he] at hdigit
  cases hdigit

def Fits (n : Int) : Prop := -0x8000000000000000 ≤ n ∧ n < 0x8000000000000000

theorem fits_of_lt (h : m < 2 ^ 63) : Fits m := ⟨by omega, by omega⟩

theorem integer?_integerText (hn : Fits n) :
    integer? (Json.integerText n) = some (.integer n) := by
  have hvalue : (if decide (n < 0) = true then -(n.natAbs : Int) else n.natAbs) = n := by
    split_ifs with h
    · have hneg := of_decide_eq_true h
      omega
    · have hnonneg : ¬ n < 0 := by simpa using h
      omega
  rw [integer?, signed_integerText]
  · dsimp only
    rw [decimal?_toDigits, Option.bind_some, hvalue]
    exact if_pos hn
  · exact fun _ => integerText_ne (by decide)
  · exact fun _ => integerText_ne (by decide)
  · exact fun _ => integerText_ne (by decide)

theorem plainScalar?_integerText (hn : Fits n) :
    plainScalar? (Json.integerText n) = some (.integer n) := by
  obtain ⟨c, cs, htext, -, hdigits⟩ := Json.exists_integerText_eq n
  have hmoment : isMoment (Json.integerText n) = false := by
    rw [htext]
    exact isMoment_cons hdigits
  have htrue : Json.integerText n ≠ "true".toList := integerText_ne (by decide)
  have hfalse : Json.integerText n ≠ "false".toList := integerText_ne (by decide)
  rw [plainScalar?, if_neg htrue, if_neg hfalse, if_neg (by simp [hmoment]), float?_integerText,
    integer?_integerText hn]
  rfl

theorem scanScalar_integerText (hn : Fits n)
    (rest : List Char) :
    scanScalar (Json.integerText n ++ '\n' :: rest) = some (.integer n, '\n' :: rest) := by
  obtain ⟨c, cs, htext, hc, hdigits⟩ := Json.exists_integerText_eq n
  have hrun : ∀ d ∈ Json.integerText n, isScalarChar d = true := by
    rw [htext, List.forall_mem_cons]
    refine ⟨?_, fun d hd => isScalarChar_of_isDigit (hdigits d hd)⟩
    rcases Bool.or_eq_true_iff.mp hc with hdigit | hsign
    · exact isScalarChar_of_isDigit hdigit
    · rw [beq_iff_eq.mp hsign]
      rfl
  have hstop : StopsAt isScalarChar ('\n' :: rest) := stopsAt_cons rfl
  have hquote : ¬ ((Json.integerText n ++ '\n' :: rest).head? = some '"' ∨
      (Json.integerText n ++ '\n' :: rest).head? = some '\'') := by
    simp [htext, ne_of_kind hc (d := '"') (by decide),
      ne_of_kind hc (d := '\'') (by decide)]
  rw [scanScalar, if_neg hquote]
  dsimp only
  rw [takeWhile_append hrun hstop, dropWhile_append hrun hstop, plainScalar?_integerText hn]
  rfl

end Integers

section Texts

theorem exists_quoted_eq (s : String) : ∃ q more, quoted s = q :: more ∧ isQuote q = true := by
  rw [quoted]
  cases TextForm.of s.toList with
  | basic => exact ⟨'"', _, rfl, rfl⟩
  | literal => exact ⟨'\'', _, rfl, rfl⟩
  | longBasic => exact ⟨'"', _, rfl, rfl⟩
  | longLiteral => exact ⟨'\'', _, rfl, rfl⟩

theorem scanScalar_quoted (s : String) (rest : List Char) :
    scanScalar (quoted s ++ '\n' :: rest) = some (.text s, '\n' :: rest) := by
  have hstop : StopsAt isQuote ('\n' :: rest) := stopsAt_cons rfl
  have hscan := scanString_quoted s hstop
  obtain ⟨q, more, hquoted, hq⟩ := exists_quoted_eq s
  have hhead : (quoted s ++ '\n' :: rest).head? = some '"' ∨
      (quoted s ++ '\n' :: rest).head? = some '\'' := by
    simpa [hquoted, isQuote] using hq
  rw [scanScalar, if_pos hhead, hscan, Option.map_some, String.ofList_toList]

end Texts

end Toml

end BundleTracker
