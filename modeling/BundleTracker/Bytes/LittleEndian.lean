/-!
# Fixed-width integers as bytes

A number below `256 ^ w` in `w` bytes, least significant first, and the
reverse reading.
-/

namespace BundleTracker
namespace LittleEndian

/-- The `w` low bytes of `n`, least significant first. -/
def bytes : Nat → Nat → List UInt8
  | 0, _ => []
  | w + 1, n => UInt8.ofNat n :: bytes w (n / 256)

/-- The number that these bytes write. -/
def value : List UInt8 → Nat
  | [] => 0
  | b :: rest => b.toNat + 256 * value rest

@[simp] theorem length_bytes (w n : Nat) : (bytes w n).length = w := by
  induction w generalizing n with
  | zero => rfl
  | succ w ih => simp [bytes, ih]

end LittleEndian
end BundleTracker
