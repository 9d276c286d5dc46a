import BundleTracker.Tag
import BundleTracker.Script.Number

/-!
# Deposits

A deposit output binds its value to a sidechain. Its script holds the deposit
flag, the index of the sidechain and the key hash that receives the value, in
one of two layouts: six instructions that leave only a true value on the
stack, or one push of 25 bytes. Every other script is no deposit.
-/

namespace BundleTracker

/-- The hash of the key that receives a deposit. -/
abbrev KeyHash := Block 20

/-- An output of a transaction; the amount is in satoshis. -/
structure Output where
  amount : UInt64
  script : Script
  deriving DecidableEq

namespace Deposit

inductive Layout
  | unconditional
  | directPush
  deriving DecidableEq

def Layout.text : Layout → String
  | .unconditional => "unconditional"
  | .directPush => "direct_push"

end Deposit

structure Deposit where
  sidechain : UInt8
  destination : KeyHash
  layout : Deposit.Layout
  deriving DecidableEq

namespace Deposit

/-- Reads the single push of flag, sidechain and key hash. The length byte is taken as it
stands, so no other way to write the push is accepted. -/
def readDirectPush? (flag : Tag) : Script → Option Deposit
  | 0x19 :: payload =>
    match payload.drop 4 with
    | sidechain :: destination =>
      if flag.begins payload then
        (Block.ofList? destination).map (⟨sidechain, ·, .directPush⟩)
      else none
    | [] => none
  | _ => none

/-- The sidechain that a script number names. -/
def sidechainOf? (number : Int) : Option UInt8 :=
  if 0 ≤ number ∧ number < 256 then some (UInt8.ofNat number.toNat) else none

/-- Reads the six instructions: true, flag, key hash, sidechain, drop, drop two. -/
def readUnconditional? (flag : Tag) (script : Script) : Option Deposit :=
  match Script.split script with
  | some [.op 0x51, .push mark, .push destination, number, .op 0x75, .op 0x6d] =>
    if mark = flag.toList then do
      let sidechain ← Script.number? number >>= sidechainOf?
      let destination ← Block.ofList? destination
      some ⟨sidechain, destination, .unconditional⟩
    else none
  | _ => none

/-- The deposit that a script makes under `flag`, if it is one. -/
def ofScript? (flag : Tag) (script : Script) : Option Deposit :=
  (readDirectPush? flag script).or (readUnconditional? flag script)

def unconditionalScript (flag : Tag) (sidechain : UInt8) (destination : KeyHash) : Script :=
  [(0x51 : UInt8)] ++ Script.push flag.toList ++ Script.push destination.toList ++
    Script.pushNumber sidechain ++ [(0x75 : UInt8), 0x6d]

def directPushScript (flag : Tag) (sidechain : UInt8) (destination : KeyHash) : Script :=
  Script.push (flag.toList ++ sidechain :: destination.toList)

end Deposit

/-- A deposit with the position and the amount of its output. -/
structure DepositOutput where
  position : Nat
  amount : UInt64
  deposit : Deposit
  deriving DecidableEq

/-- The deposits among the outputs of a transaction. -/
def depositsIn (flag : Tag) (outputs : List Output) : List DepositOutput :=
  outputs.zipIdx.filterMap fun (output, position) =>
    (Deposit.ofScript? flag output.script).map (⟨position, output.amount, ·⟩)

end BundleTracker
