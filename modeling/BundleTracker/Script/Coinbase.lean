import BundleTracker.Bundle
import BundleTracker.Script.Deposit

/-!
# Coinbase data

A block's coinbase may commit to the hash of the bundle state after the block
and may propose bundles for the next verification period. Both are outputs
without value whose script is a return opcode and one push: the commitment
tag and the hash, or the proposal tag, a sidechain and a bundle digest.
-/

namespace BundleTracker
namespace Coinbase

/-- The return opcode, which makes an output unspendable. -/
def opReturn : UInt8 := 0x6a

def dataScript (payload : List UInt8) : Script := opReturn :: Script.push payload

/-- What follows the tag in a script that is exactly a return and one tagged push. -/
def payload? (tag : Tag) (script : Script) : Option (List UInt8) :=
  match Script.split script with
  | some [.op code, .push data] =>
    if code = opReturn ∧ tag.begins data then some (data.drop 4) else none
  | _ => none

def commitmentScript (tag : Tag) (hash : Digest) : Script :=
  dataScript (tag.toList ++ hash.toList)

def commitment? (tag : Tag) (script : Script) : Option Digest :=
  payload? tag script >>= Block.ofList?

def proposalScript (tag : Tag) (bundle : Bundle) : Script :=
  dataScript (tag.toList ++ bundle.sidechain :: bundle.digest.toList)

def proposal? (tag : Tag) (script : Script) : Option Bundle :=
  match payload? tag script with
  | some (sidechain :: digest) => (Block.ofList? digest).map (⟨sidechain, ·⟩)
  | _ => none

/-- Two commitments in one coinbase that differ. -/
structure Conflict where
  first : Digest
  second : Digest
  deriving DecidableEq

def Conflict.message (conflict : Conflict) : String :=
  s!"conflicting sidechain DB commitments {conflict.first.text} and {conflict.second.text} in coinbase"

/-- The one commitment in a list of commitments, which may repeat it. -/
def agreed : List Digest → Except Conflict (Option Digest)
  | [] => .ok none
  | first :: rest =>
    match rest.find? (· ≠ first) with
    | none => .ok (some first)
    | some second => .error ⟨first, second⟩

/-- The commitment among the outputs of a coinbase, if they carry one. -/
def findCommitment (tag : Tag) (outputs : List Output) : Except Conflict (Option Digest) :=
  agreed (outputs.filterMap fun output => commitment? tag output.script)

/-- The bundles that the outputs of a coinbase propose, in their order. -/
def proposals (tag : Tag) (outputs : List Output) : List Bundle :=
  outputs.filterMap fun output => proposal? tag output.script

/-- The outputs that carry a commitment, if there is one, and then the proposals. -/
def dataOutputs (commitmentTag proposalTag : Tag) (commitment : Option Digest)
    (bundles : List Bundle) : List Output :=
  (commitment.toList.map (commitmentScript commitmentTag) ++
    bundles.map (proposalScript proposalTag)).map (⟨0, ·⟩)

end Coinbase
end BundleTracker
