import Mathlib.Tactic
import BundleTracker.Proofs.Text.Numbers

/-!
# Reading the text of tokens

The text of a token is read as this token, whatever follows it; an integer must not be followed by
a character that a number may contain. Strings are read character by character, since every
character is escaped by a letter or by its code or stands for itself.
-/

namespace BundleTracker

namespace Json

open Text

variable {c : Char} {n : Int} {m : Nat} {rest : List Char}

section Strings

theorem unit?_code (h : m < 256) :
    unit? '0' '0' (Nat.digitChar (m / 16)) (Nat.digitChar (m % 16)) = some m := by
  have hzero : Hex.digit? '0' = some 0 := by decide
  rw [unit?, hzero, Hex.digit?_digitChar (by omega), Hex.digit?_digitChar (by omega)]
  simp only [Option.bind_eq_bind, Option.bind_some, Option.pure_def, Option.some.injEq]
  omega

theorem escape_cases (c : Char) :
    (∃ e, e ≠ 'u' ∧ shortEscape? e = some c ∧ escape c = ['\\', e]) ∨
      (c < ' ' ∧ escape c = unitEscape c) ∨
      (c ≠ '"' ∧ c ≠ '\\' ∧ ¬ c < ' ' ∧ escape c = [c]) := by
  unfold escape
  split_ifs with hquote hslash hn hr ht hb hf hcontrol
  · exact .inl ⟨'"', by decide, by rw [hquote]; rfl, rfl⟩
  · exact .inl ⟨'\\', by decide, by rw [hslash]; rfl, rfl⟩
  · exact .inl ⟨'n', by decide, by rw [hn]; rfl, rfl⟩
  · exact .inl ⟨'r', by decide, by rw [hr]; rfl, rfl⟩
  · exact .inl ⟨'t', by decide, by rw [ht]; rfl, rfl⟩
  · exact .inl ⟨'b', by decide, by rw [hb]; rfl, rfl⟩
  · exact .inl ⟨'f', by decide, by rw [hf]; rfl, rfl⟩
  · exact .inr (.inl ⟨hcontrol, rfl⟩)
  · exact .inr (.inr ⟨hquote, hslash, hcontrol, rfl⟩)

theorem scanString_escape (c : Char) (rest : List Char) :
    scanString (escape c ++ rest) = (scanString rest).map fun p => (.char c :: p.1, p.2) := by
  rcases escape_cases c with ⟨e, hu, he, h⟩ | ⟨hlt, h⟩ | ⟨hquote, hslash, hcontrol, h⟩
  · rw [h, List.cons_append, List.singleton_append, scanString, he]
    · cases scanString rest <;> rfl
    · rintro a b c d rest rfl
      exact absurd rfl hu
  · have hcode : c.toNat < 32 := hlt
    have hunit : Piece.ofUnit c.toNat = .char c := by
      rw [Piece.ofUnit, if_neg (by omega), Char.ofNat_toNat]
    rw [h]
    simp only [unitEscape, List.cons_append, List.nil_append]
    rw [scanString, unit?_code (by omega)]
    cases scanString rest with
    | none => rfl
    | some p => simp [hunit]
  · rw [h, List.singleton_append, scanString, if_neg (by simp [hslash, hcontrol])]
    · cases scanString rest <;> rfl
    · exact hquote
    · rintro - - - - - rfl
      exact absurd rfl hslash
    · rintro - - rfl
      exact absurd rfl hslash

theorem scanString_flatMap_escape (cs rest : List Char) :
    scanString (cs.flatMap escape ++ '"' :: rest) = some (cs.map .char, rest) := by
  induction cs with
  | nil => rfl
  | cons c cs ih =>
    rw [List.flatMap_cons, List.append_assoc, scanString_escape, ih]
    rfl

theorem joinPieces_map_char (cs : List Char) : joinPieces (cs.map .char) = some cs := by
  induction cs with
  | nil => rfl
  | cons c cs ih =>
    rw [List.map_cons, joinPieces, ih]
    rfl

theorem next?_quoted (s : String) (rest : List Char) :
    Token.next? (quoted s ++ rest) = some (.scalar (.text s), rest) := by
  have hquoted : quoted s ++ rest = '"' :: (s.toList.flatMap escape ++ '"' :: rest) := by
    simp [quoted]
  have htext : textOf (s.toList.map .char) = .text s := by
    rw [textOf, joinPieces_map_char]
    simp
  rw [hquoted, Token.next?, scanString_flatMap_escape, Option.map_some, htext]

end Strings

section Numbers

theorem numberTail?_toDigits (negative : Bool) (m : Nat) :
    (if (Nat.toDigits 10 m).takeWhile isDigit = [] ∨
        ((Nat.toDigits 10 m).takeWhile isDigit).head? = some '0' ∧
          ((Nat.toDigits 10 m).takeWhile isDigit).length ≠ 1 then none
      else numberTail? negative ((Nat.toDigits 10 m).takeWhile isDigit)
        ((Nat.toDigits 10 m).dropWhile isDigit)) =
      some (integerOf negative (Nat.toDigits 10 m)) := by
  have hdigits : ∀ c ∈ Nat.toDigits 10 m, isDigit c = true := fun c => isDigit_of_mem_toDigits
  rw [takeWhile_eq_self hdigits, dropWhile_eq_nil hdigits, if_neg]
  · rfl
  · rintro (hnil | ⟨hzero, hlength⟩)
    · exact Nat.toDigits_ne_nil hnil
    · rw [eq_zero_of_head?_toDigits hzero] at hlength
      exact hlength rfl

theorem number?_toDigits (m : Nat) :
    number? (Nat.toDigits 10 m) = some (integerOf false (Nat.toDigits 10 m)) := by
  rw [← numberTail?_toDigits]
  unfold number?
  split
  rename_i h
  split at h
  · rename_i body heq
    have hsign : isDigit '-' = true := isDigit_of_mem_toDigits (m := m) (by rw [heq]; simp)
    exact absurd hsign (by decide)
  · cases h
    rfl

theorem number?_neg_toDigits (m : Nat) :
    number? ('-' :: Nat.toDigits 10 m) = some (integerOf true (Nat.toDigits 10 m)) := by
  rw [← numberTail?_toDigits]
  rfl

def Fits (n : Int) : Prop := -0x8000000000000000 ≤ n ∧ n < 0x10000000000000000

theorem fits_of_lt (h : m < 2 ^ 64) : Fits m := ⟨by omega, by omega⟩

theorem number?_integerText (hn : Fits n) : number? (integerText n) = some (.integer n) := by
  obtain ⟨hlow, hhigh⟩ := hn
  unfold integerText
  split_ifs with hneg
  · rw [number?_neg_toDigits, integerOf, decimalValue_toDigits, if_pos rfl, if_pos (by omega)]
    congr 2
    omega
  · rw [number?_toDigits, integerOf, decimalValue_toDigits, if_neg Bool.false_ne_true,
      if_pos (by omega)]
    congr 2
    omega

theorem next?_of_opensInteger (hc : opensInteger c = true) (rest : List Char) :
    Token.next? (c :: rest) = (number? (c :: rest.takeWhile isNumeric)).map fun d =>
      (.scalar d, rest.dropWhile isNumeric) := by
  rw [Token.next?]
  · exact if_pos hc
  · exact ne_of_kind hc (by decide)
  · exact ne_of_kind hc (by decide)
  · exact ne_of_kind hc (by decide)
  · exact ne_of_kind hc (by decide)
  · exact ne_of_kind hc (by decide)
  · exact ne_of_kind hc (by decide)
  · exact ne_of_kind hc (by decide)
  · exact fun _ hn => absurd hn (ne_of_kind hc (by decide))
  · exact fun _ ht => absurd ht (ne_of_kind hc (by decide))
  · exact fun _ hf => absurd hf (ne_of_kind hc (by decide))

theorem isBlank_of_opensInteger (hc : opensInteger c = true) : isBlank c = false := by
  simp [isBlank, ne_of_kind hc (d := ' ') (by decide),
    ne_of_kind hc (d := '\n') (by decide), ne_of_kind hc (d := '\r') (by decide),
    ne_of_kind hc (d := '\t') (by decide)]

theorem next?_integerText (hn : Fits n) (hrest : StopsAt isNumeric rest) :
    Token.next? (integerText n ++ rest) = some (.scalar (.integer n), rest) := by
  obtain ⟨c, cs, htext, hc, hdigits⟩ := exists_integerText_eq n
  have hnumeric : ∀ d ∈ cs, isNumeric d = true := by
    intro d hd
    simp [isNumeric, hdigits d hd]
  have hnumber := number?_integerText hn
  rw [htext] at hnumber
  rw [htext, List.cons_append, next?_of_opensInteger hc, takeWhile_append hnumeric hrest,
    dropWhile_append hnumeric hrest, hnumber]
  rfl

end Numbers

section Splitting

@[simp] theorem tokens_nil : tokens [] = some [] := by
  rw [tokens]
  rfl

theorem tokens_of_next? {cs : List Char} {token : Token}
    (hnext : Token.next? cs = some (token, rest)) (hblank : StopsAt isBlank cs) :
    tokens cs = (tokens rest).map (token :: ·) := by
  have hdrop : cs.dropWhile isBlank = cs := dropWhile_eq_self hblank
  rw [tokens]
  split
  · rename_i hnil
    rw [hdrop] at hnil
    rw [hnil] at hnext
    cases hnext
  · split
    · rename_i hnone
      rw [hdrop, hnext] at hnone
      cases hnone
    · rename_i hsome
      rw [hdrop, hnext] at hsome
      obtain ⟨rfl, rfl⟩ := Prod.mk.inj (Option.some.inj hsome)
      rfl

/-- The scalars whose text writes them. -/
inductive Scalar : Datum → Prop
  | null : Scalar .null
  | boolean (b : Bool) : Scalar (.boolean b)
  | integer {n : Int} : Fits n → Scalar (.integer n)
  | text (s : String) : Scalar (.text s)

theorem Scalar.tokens_append {d : Datum} (hd : Scalar d) (hrest : StopsAt isNumeric rest) :
    tokens (Token.text (.scalar d) ++ rest) = (tokens rest).map (.scalar d :: ·) := by
  cases hd with
  | null => exact tokens_of_next? rfl (stopsAt_cons rfl)
  | boolean b => cases b <;> exact tokens_of_next? rfl (stopsAt_cons rfl)
  | @integer n hn =>
    refine tokens_of_next? (next?_integerText hn hrest) ?_
    obtain ⟨c, cs, htext, hc, -⟩ := exists_integerText_eq n
    rw [Token.text, scalarText, htext]
    refine stopsAt_cons (isBlank_of_opensInteger hc)
  | text s => exact tokens_of_next? (next?_quoted s rest) (stopsAt_cons rfl)

theorem tokens_append_of_mark {token : Token} (hmark : ∀ d, token ≠ .scalar d) (rest : List Char) :
    tokens (token.text ++ rest) = (tokens rest).map (token :: ·) := by
  cases token with
  | openList => exact tokens_of_next? rfl (stopsAt_cons rfl)
  | closeList => exact tokens_of_next? rfl (stopsAt_cons rfl)
  | openRecord => exact tokens_of_next? rfl (stopsAt_cons rfl)
  | closeRecord => exact tokens_of_next? rfl (stopsAt_cons rfl)
  | comma => exact tokens_of_next? rfl (stopsAt_cons rfl)
  | colon => exact tokens_of_next? rfl (stopsAt_cons rfl)
  | scalar d => exact absurd rfl (hmark d)

end Splitting

end Json

end BundleTracker
