import BundleTracker.Script.Deposit

/-!
# Transactions

The consensus encoding of a transaction, with or without witness data. Counts
and lengths are compact sizes, and only the shortest form of each is read. A
transaction without inputs is announced by a zero byte where the flag of the
witness form would stand, so such a byte is always read as that marker. Only the
outputs are kept.
-/

namespace BundleTracker
namespace Transaction

/-- A reader takes bytes off the front. -/
abbrev Reader := StateT (List UInt8) Option

def take (count : Nat) : Reader (List UInt8) := fun bytes => Script.cut? count bytes

def readNumber (width : Nat) : Reader Nat := do
  return LittleEndian.value (← take width)

/-- A number of `width` bytes that no shorter form could hold. -/
def readLong (width least : Nat) : Reader Nat := do
  let n ← readNumber width
  if least ≤ n then return n else failure

def readCompactSize : Reader Nat := do
  match ← readNumber 1 with
  | 0xfd => readLong 2 0xfd
  | 0xfe => readLong 4 0x10000
  | 0xff => readLong 8 0x100000000
  | n => return n

def readMany {α : Type} (read : Reader α) : Nat → Reader (List α)
  | 0 => return []
  | count + 1 => do
    let x ← read
    return x :: (← readMany read count)

def readList {α : Type} (read : Reader α) : Reader (List α) := do
  readMany read (← readCompactSize)

def readBytes : Reader (List UInt8) := do
  take (← readCompactSize)

/-- An input: the output it spends, its script and its sequence number. -/
def readInput : Reader Unit := do
  let _ ← take 36
  let _ ← readBytes
  let _ ← take 4

def readOutput : Reader Output := do
  let amount ← readNumber 8
  return ⟨UInt64.ofNat amount, ← readBytes⟩

/-- The witness data of one input; returns whether there is any. -/
def readWitness : Reader Bool := do
  return !(← readList readBytes).isEmpty

/-- The witness form, from its flag on. Witness data must not be empty for all inputs. -/
def readWitnessForm : Reader (List Output) := do
  let flag ← readNumber 1
  if flag ≠ 1 then failure
  let inputs ← readList readInput
  let outputs ← readList readOutput
  let witnesses ← readMany readWitness inputs.length
  if !witnesses.isEmpty && !witnesses.any id then failure
  return outputs

/-- The outputs of a transaction. -/
def readOutputs : Reader (List Output) := do
  let _ ← take 4
  let inputs ← readList readInput
  let outputs ← if inputs.isEmpty then readWitnessForm else readList readOutput
  let _ ← take 4
  return outputs

/-- The outputs of the transaction that is encoded in all of `bytes`. -/
def outputs? (bytes : List UInt8) : Option (List Output) :=
  match readOutputs bytes with
  | some (outputs, []) => some outputs
  | _ => none

end Transaction
end BundleTracker
