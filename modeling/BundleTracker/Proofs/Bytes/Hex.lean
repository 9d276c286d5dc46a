import Mathlib.Tactic
import BundleTracker.Hash.Digest

/-!
# Hexadecimal digits

Every byte is written with two lower-case digits at its own place, the high half first. Reading
does not tell the cases of letters apart.
-/

namespace BundleTracker

namespace Hex

variable {bytes : List UInt8} {i : Nat} {b : UInt8}

def lowerDigits : List Char := (List.range 16).map Nat.digitChar

theorem digit?_toLower (c : Char) : digit? c.toLower = digit? c := by
  by_cases hupper : 'A' ≤ c ∧ c ≤ 'Z'
  · have hlow : 65 ≤ c.toNat := hupper.1
    have hhigh : c.toNat ≤ 90 := hupper.2
    rw [← Char.ofNat_toNat c]
    generalize c.toNat = code at hlow hhigh
    interval_cases code <;> decide
  · have hsame : c.toLower = c := dif_neg hupper
    rw [hsame]

theorem decode_map_toLower (cs : List Char) : decode (cs.map Char.toLower) = decode cs := by
  fun_induction decode cs with
  | case1 => rfl
  | case2 => rfl
  | case3 high low rest ih =>
    rw [List.map_cons, List.map_cons, decode, digit?_toLower, digit?_toLower, ih]

theorem length_encode (bytes : List UInt8) : (encode bytes).length = 2 * bytes.length := by
  induction bytes with
  | nil => rfl
  | cons b bytes ih =>
    rw [encode, List.flatMap_cons, List.length_append, ← encode, ih, List.length_cons, digits]
    simp only [List.length_cons, List.length_nil]
    omega

theorem mem_lowerDigits_iff {c : Char} : c ∈ lowerDigits ↔ ∃ n < 16, Nat.digitChar n = c := by
  simp only [lowerDigits, List.mem_map, List.mem_range]

theorem mem_lowerDigits_of_mem_encode {c : Char} (h : c ∈ encode bytes) : c ∈ lowerDigits := by
  obtain ⟨b, -, hc⟩ := List.mem_flatMap.mp h
  have hlt := b.toNat_lt
  have hdigit (n : Nat) (hn : n < 16) : Nat.digitChar n ∈ lowerDigits :=
    mem_lowerDigits_iff.mpr ⟨n, hn, rfl⟩
  simp only [digits, List.mem_cons, List.not_mem_nil, or_false] at hc
  rcases hc with rfl | rfl
  · exact hdigit _ (by omega)
  · exact hdigit _ (by omega)

theorem getElem?_encode (h : bytes[i]? = some b) :
    (encode bytes)[2 * i]? = some (Nat.digitChar (b.toNat / 16)) ∧
      (encode bytes)[2 * i + 1]? = some (Nat.digitChar (b.toNat % 16)) := by
  induction bytes generalizing i with
  | nil => cases h
  | cons first bytes ih =>
    cases i with
    | zero =>
      obtain rfl := Option.some.inj h
      exact ⟨rfl, rfl⟩
    | succ i => exact ih h

end Hex

namespace Digest

variable {d : Digest} {i : Nat} {b : UInt8}

/-- Whether a text writes a digest, with letters of either case. -/
def Spelled (d : Digest) (digits : String) : Prop :=
  digits.toList.map Char.toLower = d.text.toList

theorem toList_text (d : Digest) : d.text.toList = Hex.encode d.toList.reverse := by
  rw [text, Hex.text, String.toList_ofList]

theorem spelled_text (d : Digest) : d.Spelled d.text := by
  have hlower : ∀ n < 16, (Nat.digitChar n).toLower = id (Nat.digitChar n) := by decide
  rw [Spelled, List.map_congr_left, List.map_id]
  intro c hc
  rw [toList_text] at hc
  obtain ⟨n, hn, rfl⟩ := Hex.mem_lowerDigits_iff.mp (Hex.mem_lowerDigits_of_mem_encode hc)
  exact hlower n hn

theorem ofText?_of_spelled {digits : String} (h : d.Spelled digits) : ofText? digits = some d := by
  rw [ofText?, Hex.ofText?, ← Hex.decode_map_toLower, h, ← Hex.ofText?, ← ofText?]
  exact ofText?_text d

theorem length_text (d : Digest) : d.text.length = 64 := by
  rw [← String.length_toList, toList_text, Hex.length_encode, List.length_reverse, d.length_toList]

theorem getElem?_text (hi : i < 32) (h : d.toList[31 - i]? = some b) :
    d.text.toList[2 * i]? = some (Nat.digitChar (b.toNat / 16)) ∧
      d.text.toList[2 * i + 1]? = some (Nat.digitChar (b.toNat % 16)) := by
  rw [toList_text]
  refine Hex.getElem?_encode ?_
  rw [List.getElem?_reverse (by rw [d.length_toList]; exact hi), d.length_toList, ← h]

end Digest

end BundleTracker
