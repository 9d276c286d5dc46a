/-!
# The range of doubles

Doubles have 53 binary digits, and numbers from a certain limit on round past
the largest of them. Decimal numbers are held against that limit in whole
numbers, without rounding anything that the notation does not round.
-/

namespace BundleTracker
namespace Double

/-- The least number that rounds past the largest double. -/
def limit : Nat := Nat.pow 2 1024 - Nat.pow 2 970

/-- Whether `mantissa * 10 ^ exponent` rounds past the largest double. The limit has 309 digits, so
only a number with as many before the point has to be compared. -/
def exceeds (mantissa : Nat) (exponent : Int) : Bool :=
  let places := (Nat.toDigits 10 mantissa).length + exponent
  if mantissa = 0 then false
  else if places ≠ 309 then 309 < places
  else if 0 ≤ exponent then limit ≤ mantissa * Nat.pow 10 exponent.toNat
  else limit * Nat.pow 10 (-exponent).toNat ≤ mantissa

/-- The nearest number with 53 binary digits; a half goes to the even neighbour. -/
def round (n : Nat) : Nat :=
  let unit := Nat.pow 2 (n.log2 - 52)
  let digits := n / unit
  let rest := 2 * (n % unit)
  if rest < unit ∨ (rest = unit ∧ digits % 2 = 0) then digits * unit else (digits + 1) * unit

end Double
end BundleTracker
