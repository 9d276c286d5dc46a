/-!
# Hexadecimal text

Two digits a byte, high half first. Writing uses lower case; reading takes
either case and refuses an odd number of digits.
-/

namespace BundleTracker
namespace Hex

/-- The value of a hexadecimal digit of either case. -/
def digit? (c : Char) : Option Nat :=
  if '0' ≤ c ∧ c ≤ '9' then some (c.toNat - '0'.toNat)
  else if 'a' ≤ c ∧ c ≤ 'f' then some (c.toNat - 'a'.toNat + 10)
  else if 'A' ≤ c ∧ c ≤ 'F' then some (c.toNat - 'A'.toNat + 10)
  else none

/-- The two digits of a byte. -/
def digits (byte : UInt8) : List Char :=
  [Nat.digitChar (byte.toNat / 16), Nat.digitChar (byte.toNat % 16)]

def encode (bytes : List UInt8) : List Char := bytes.flatMap digits

def decode : List Char → Option (List UInt8)
  | [] => some []
  | [_] => none
  | high :: low :: rest => do
    let h ← digit? high
    let l ← digit? low
    let bytes ← decode rest
    some (UInt8.ofNat (16 * h + l) :: bytes)

/-- The digits as text. -/
def text (bytes : List UInt8) : String := String.ofList (encode bytes)

/-- The bytes that a text writes in hexadecimal. -/
def ofText? (s : String) : Option (List UInt8) := decode s.toList

theorem digit?_digitChar {n : Nat} (h : n < 16) : digit? (Nat.digitChar n) = some n := by
  have : ∀ m : Fin 16, digit? (Nat.digitChar m) = some m.val := by decide
  exact this ⟨n, h⟩

theorem decode_encode (bytes : List UInt8) : decode (encode bytes) = some bytes := by
  induction bytes with
  | nil => rfl
  | cons b bytes ih =>
    have hb : b.toNat < 256 := b.toNat_lt
    have hd : encode (b :: bytes) =
        Nat.digitChar (b.toNat / 16) :: Nat.digitChar (b.toNat % 16) :: encode bytes := rfl
    rw [hd, decode, digit?_digitChar (by omega), digit?_digitChar (by omega), ih]
    have : 16 * (b.toNat / 16) + b.toNat % 16 = b.toNat := Nat.div_add_mod _ _
    simp only [Option.bind_eq_bind, Option.bind_some, this, UInt8.ofNat_toNat]

@[simp] theorem ofText?_text (bytes : List UInt8) : ofText? (text bytes) = some bytes := by
  simp [ofText?, text, decode_encode]

end Hex
end BundleTracker
