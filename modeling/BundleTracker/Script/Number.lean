import BundleTracker.Script.Instruction

/-!
# Script numbers

Integers in at most four bytes, least significant first, with the sign in the
top bit of the last byte. Only the shortest form is read: the last byte may
not be a bare sign, unless the byte before it needs its own top bit. Zero is
the empty string, and 1 to 16 have opcodes of their own.
-/

namespace BundleTracker
namespace Script

/-- The top bit of a byte. -/
def signBit (byte : UInt8) : Bool := byte &&& 0x80 != 0

/-- Whether the last byte is needed: it holds more than a sign, or the byte before it has its
top bit set. -/
def isShortest (bytes : List UInt8) : Bool :=
  match bytes.reverse with
  | [] => true
  | [last] => last &&& 0x7f != 0
  | last :: previous :: _ => last &&& 0x7f != 0 || signBit previous

/-- The value of signed bytes. -/
def signedValue (bytes : List UInt8) : Int :=
  let value := LittleEndian.value bytes
  if bytes.getLast?.any signBit then -(value - Nat.pow 2 (8 * bytes.length - 1) : Nat) else value

def readNumber? (bytes : List UInt8) : Option Int :=
  if bytes.length ≤ 4 ∧ isShortest bytes then some (signedValue bytes) else none

/-- The number that an instruction puts on the stack, if it is one in shortest form. -/
def number? : Instruction → Option Int
  | .push data => readNumber? data
  | .op code => if 0x51 ≤ code ∧ code ≤ 0x60 then some (code - 0x50).toNat else none

/-- The script number of a byte, in shortest form. -/
def numberBytes (n : UInt8) : List UInt8 :=
  if n = 0 then [] else if n < 0x80 then [n] else [n, 0]

/-- The instruction for a byte: the opcode for 1 to 16, a push for the others. -/
def pushNumber (n : UInt8) : Script :=
  if 1 ≤ n ∧ n ≤ 16 then [0x50 + n] else push (numberBytes n)

end Script
end BundleTracker
