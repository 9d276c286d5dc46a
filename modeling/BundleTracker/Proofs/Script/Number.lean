import Mathlib.Tactic
import BundleTracker.Proofs.Script.Instruction
import BundleTracker.Script.Number

/-!
# The grammar of script numbers

The number of a byte is read from its shortest form only: no bytes for zero, one byte below 128, and
a further zero from there on. A script writes the number by a push of this form, or for 1 to 16 by
an opcode.
-/

namespace BundleTracker

namespace Script

/-- The bytes of an instruction that puts the number of a byte on the stack. -/
inductive WritesNumber (n : UInt8) : Script → Prop
  | code : 1 ≤ n → n ≤ 16 → WritesNumber n [0x50 + n]
  | push {script : Script} : Pushes (numberBytes n) script → WritesNumber n script

variable {n last : UInt8} {bytes front : List UInt8} {i : Instruction} {script : Script}

section Signs

/-- What 256 checks show holds of every byte. -/
theorem of_all_bytes {P : UInt8 → Prop} (h : ∀ b < 256, P (UInt8.ofNat b)) (byte : UInt8) :
    P byte := by
  have hbyte := h byte.toNat byte.toNat_lt
  rwa [UInt8.ofNat_toNat] at hbyte

theorem signBit_eq (byte : UInt8) : signBit byte = decide (128 ≤ byte.toNat) := by
  revert byte
  apply of_all_bytes
  decide +kernel

theorem low_ne_zero (byte : UInt8) : (byte &&& 0x7f != 0) = decide (byte.toNat % 128 ≠ 0) := by
  revert byte
  apply of_all_bytes
  decide +kernel

/-- The last byte is needed if it is no bare sign, or if the byte before it has its top bit set. -/
theorem isShortest_concat_iff :
    isShortest (front ++ [last]) = true ↔
      last.toNat % 128 ≠ 0 ∨ ∃ before previous, front = before ++ [previous] ∧
        128 ≤ previous.toNat := by
  rcases front.eq_nil_or_concat with rfl | ⟨before, previous, rfl⟩
  · simp [isShortest, low_ne_zero]
  · simp [isShortest, low_ne_zero, signBit_eq]

theorem signedValue_concat_of_lt (h : last.toNat < 128) :
    signedValue (front ++ [last]) =
      (LittleEndian.value front + 256 ^ front.length * last.toNat : Nat) := by
  simp [signedValue, signBit_eq, LittleEndian.value_concat, Nat.not_le.mpr h]

theorem signedValue_concat_of_le (h : 128 ≤ last.toNat) :
    signedValue (front ++ [last]) =
      -((LittleEndian.value front + 256 ^ front.length * (last.toNat - 128) : Nat) : Int) := by
  have htop : Nat.pow 2 (8 * (front ++ [last]).length - 1) = 256 ^ front.length * 128 := by
    have hbits : 8 * (front ++ [last]).length - 1 = 8 * front.length + 7 := by simp; omega
    rw [hbits, Nat.pow_eq, Nat.pow_add, Nat.pow_mul]
  have hle : 256 ^ front.length * 128 ≤ 256 ^ front.length * last.toNat :=
    Nat.mul_le_mul_left _ h
  have hsigned : (front ++ [last]).getLast?.any signBit = true := by simp [signBit_eq, h]
  rw [signedValue, if_pos hsigned, LittleEndian.value_concat, htop, Nat.add_sub_assoc hle,
    Nat.mul_sub]

/-- In shortest form it is negative: a bare sign is preceded by a byte that is not zero. -/
theorem signedValue_concat_neg (hshortest : isShortest (front ++ [last]) = true)
    (h : 128 ≤ last.toNat) : signedValue (front ++ [last]) < 0 := by
  have hpow : ∀ k, 0 < 256 ^ k := fun k => Nat.pow_pos (by decide)
  rw [signedValue_concat_of_le h]
  rcases isShortest_concat_iff.mp hshortest with hlow | ⟨before, previous, rfl, hprevious⟩
  · have hdigit : 0 < last.toNat - 128 := by omega
    have hproduct := Nat.mul_pos (hpow front.length) hdigit
    omega
  · have hdigit : 0 < previous.toNat := by omega
    have hproduct := Nat.mul_pos (hpow before.length) hdigit
    rw [LittleEndian.value_concat]
    omega

theorem eq_nil_of_digit_lt {l : List UInt8} {digit : Nat} (h : 256 ^ l.length * digit < 256)
    (hpos : 0 < digit) : l = [] := by
  cases l with
  | nil => rfl
  | cons b rest =>
    have hpow : 256 ≤ 256 ^ (b :: rest).length := Nat.le_self_pow (Nat.succ_ne_zero _) 256
    have hle : 256 ^ (b :: rest).length ≤ 256 ^ (b :: rest).length * digit :=
      Nat.le_mul_of_pos_right _ hpos
    omega

theorem eq_numberBytes (hshortest : isShortest bytes = true)
    (hvalue : signedValue bytes = (n.toNat : Int)) : bytes = numberBytes n := by
  have hn : n.toNat < 256 := n.toNat_lt
  rcases bytes.eq_nil_or_concat' with rfl | ⟨front, last, rfl⟩
  · obtain rfl : n = 0 := UInt8.toNat_inj.mp (Int.ofNat.inj hvalue).symm
    rfl
  have hclear : last.toNat < 128 := by
    by_contra hsign
    have hneg := signedValue_concat_neg hshortest (Nat.not_lt.mp hsign)
    omega
  rw [signedValue_concat_of_lt hclear] at hvalue
  have hsum := Int.ofNat.inj hvalue
  rw [isShortest_concat_iff] at hshortest
  by_cases hlast : last = 0
  · subst hlast
    obtain ⟨before, previous, rfl, hprevious⟩ := hshortest.resolve_left (by decide)
    rw [LittleEndian.value_concat, UInt8.toNat_zero, Nat.mul_zero, Nat.add_zero] at hsum
    have hdigit : 256 ^ before.length * previous.toNat < 256 := by omega
    obtain rfl : before = [] := eq_nil_of_digit_lt hdigit (by omega)
    obtain rfl : previous = n := UInt8.toNat_inj.mp (by simpa [LittleEndian.value] using hsum)
    have hlarge : ¬ previous < 0x80 := by
      rw [UInt8.lt_iff_toNat_lt]
      exact Nat.not_lt.mpr hprevious
    have hne : previous ≠ 0 := by
      rintro rfl
      exact hlarge (by decide)
    rw [numberBytes, if_neg hne, if_neg hlarge]
    rfl
  · have hpos : 0 < last.toNat := Nat.pos_of_ne_zero fun h => hlast (UInt8.toNat_inj.mp h)
    obtain rfl : front = [] := eq_nil_of_digit_lt (by omega) hpos
    obtain rfl : last = n := UInt8.toNat_inj.mp (by simpa [LittleEndian.value] using hsum)
    have hsmall : last < 0x80 := UInt8.lt_iff_toNat_lt.mpr hclear
    rw [numberBytes, if_neg hlast, if_pos hsmall, List.nil_append]

end Signs

section Numbers

theorem readNumber?_numberBytes (n : UInt8) :
    readNumber? (numberBytes n) = some (n.toNat : Int) := by
  revert n
  apply of_all_bytes
  decide +kernel

theorem readNumber?_eq_some_iff :
    readNumber? bytes = some (n.toNat : Int) ↔ bytes = numberBytes n := by
  constructor
  · intro h
    rw [readNumber?, Option.ite_none_right_eq_some] at h
    exact eq_numberBytes h.1.2 (Option.some.inj h.2)
  · rintro rfl
    exact readNumber?_numberBytes n

theorem number?_eq_some_iff :
    number? i = some (n.toNat : Int) ↔
      i = .push (numberBytes n) ∨ 1 ≤ n ∧ n ≤ 16 ∧ i = .op (0x50 + n) := by
  cases i with
  | push data =>
    rw [number?, readNumber?_eq_some_iff]
    simp
  | op code =>
    have hcode := code.toNat_lt
    have hn := n.toNat_lt
    have hcodes : ((0x51 ≤ code ∧ code ≤ 0x60) ∧ (code - 0x50).toNat = n.toNat) ↔
        1 ≤ n ∧ n ≤ 16 ∧ code = 0x50 + n := by
      simp only [UInt8.le_iff_toNat_le, ← UInt8.toNat_inj, UInt8.toNat_sub, UInt8.toNat_add,
        UInt8.reduceToNat]
      omega
    simp [number?, hcodes]

theorem writesNumber_iff :
    WritesNumber n script ↔ ∃ i, Encodes i script ∧ number? i = some (n.toNat : Int) := by
  constructor
  · intro h
    cases h with
    | code hpos hle =>
      refine ⟨.op (0x50 + n), .op ?_, number?_eq_some_iff.mpr (.inr ⟨hpos, hle, rfl⟩)⟩
      simp only [UInt8.le_iff_toNat_le, UInt8.lt_iff_toNat_lt, UInt8.toNat_add,
        UInt8.reduceToNat] at hpos hle ⊢
      omega
    | push hpushes => exact ⟨_, .push hpushes, number?_eq_some_iff.mpr (.inl rfl)⟩
  · rintro ⟨i, hencodes, hnumber⟩
    rcases number?_eq_some_iff.mp hnumber with rfl | ⟨hpos, hle, rfl⟩
    · cases hencodes with
      | push hpushes => exact .push hpushes
    · cases hencodes with
      | op _ => exact .code hpos hle

theorem writesNumber_pushNumber (n : UInt8) : WritesNumber n (pushNumber n) := by
  unfold pushNumber
  split_ifs with h
  · exact .code h.1 h.2
  · refine .push (.direct ?_)
    unfold numberBytes
    split_ifs <;> simp

end Numbers

end Script

end BundleTracker
