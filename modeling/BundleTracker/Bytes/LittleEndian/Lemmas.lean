import BundleTracker.Bytes.LittleEndian
import Mathlib.Algebra.Order.Ring.Nat

/-!
# Reading back what was written

Reading the bytes of a number gives the number, up to the width in bytes, so
numbers that fit the width are told apart by their bytes. Writing the value of
bytes in as many gives the bytes.
-/

namespace BundleTracker
namespace LittleEndian

theorem value_bytes (w n : Nat) : value (bytes w n) = n % 256 ^ w := by
  induction w generalizing n with
  | zero => simp [bytes, value, Nat.mod_one]
  | succ w ih =>
    rw [bytes, value, ih, Nat.pow_succ', Nat.mod_mul]
    simp

theorem bytes_inj {w m n : Nat} (hm : m < 256 ^ w) (hn : n < 256 ^ w)
    (h : bytes w m = bytes w n) : m = n := by
  have h' := congrArg value h
  rwa [value_bytes, value_bytes, Nat.mod_eq_of_lt hm, Nat.mod_eq_of_lt hn] at h'

theorem value_concat (l : List UInt8) (b : UInt8) :
    value (l ++ [b]) = value l + 256 ^ l.length * b.toNat := by
  induction l with
  | nil => simp [value]
  | cons a rest ih =>
    rw [List.cons_append, value, value, ih, List.length_cons, Nat.pow_succ', Nat.mul_assoc,
      Nat.mul_add, Nat.add_assoc]

theorem value_lt (l : List UInt8) : value l < 256 ^ l.length := by
  induction l with
  | nil => decide
  | cons b rest ih =>
    have hb : b.toNat < 256 := b.toNat_lt
    rw [value, List.length_cons, Nat.pow_succ']
    omega

theorem bytes_value (l : List UInt8) : bytes l.length (value l) = l := by
  induction l with
  | nil => rfl
  | cons b rest ih =>
    have hb : b.toNat < 256 := b.toNat_lt
    have hlow : UInt8.ofNat (b.toNat + 256 * value rest) = b := by
      rw [← UInt8.toNat_inj, UInt8.toNat_ofNat']
      omega
    have hhigh : (b.toNat + 256 * value rest) / 256 = value rest := by omega
    rw [List.length_cons, value, bytes, hlow, hhigh, ih]

end LittleEndian
end BundleTracker
