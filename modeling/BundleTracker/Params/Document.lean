import BundleTracker.Params.Basic
import BundleTracker.Text.Reading

/-!
# Parameters in documents

The fields under which parameters are read and written. Tags are hexadecimal
text, and the table of sidechains is a list in ascending order of the indices;
reading it checks each entry and refuses repeated indices.
-/

namespace BundleTracker

/-- Why a field of the parameters is refused, although it has the right shape. -/
inductive ParamsCause
  | tag (e : TagError)
  | sidechain (e : SidechainError)
  deriving DecidableEq

def ParamsCause.message : ParamsCause → String
  | .tag e => e.message
  | .sidechain e => e.message

namespace Tag

def read : Reader ParamsCause Tag
  | .text s => (ofText s).mapError (.refused <| .tag ·)
  | _ => .error .shape

end Tag

namespace Sidechain

variable {ε : Type}

/-- Reads a sidechain, which need not be valid. -/
def read (spare : Bool) : Reader ε Sidechain :=
  Reader.record ["idx", "name", "verification_period", "min_workscore"] spare fun parts =>
    Sidechain.mk <$> parts.get "idx" Reader.byte <*> parts.get "name" Reader.text <*>
      parts.getD "verification_period" Reader.word 300 <*>
      parts.getD "min_workscore" Reader.word 100

def toDatum (s : Sidechain) : Datum := .record [
  ("idx", .integer s.index.toNat), ("name", .text s.name),
  ("verification_period", .integer s.period.toNat), ("min_workscore", .integer s.threshold.toNat)]

end Sidechain

namespace SidechainTable

def read (spare : Bool) : Reader ParamsCause SidechainTable := fun d => do
  let sidechains ← Reader.list (Sidechain.read spare) d
  (ofList sidechains).mapError (.refused <| .sidechain ·)

def toDatum (t : SidechainTable) : Datum := .list (t.toList.map Sidechain.toDatum)

end SidechainTable

namespace Params

def fieldNames : List String := ["deposit_flag", "commitment_tag", "bundle_commit_tag",
  "initial_workscore", "max_combination_size", "max_packages_per_height",
  "max_buffered_heights", "sidechains"]

/-- Reads parameters, which need not be valid. Lists that stand for records may hold spare items
if `spare`. -/
def read (spare : Bool) : Reader ParamsCause Params :=
  Reader.record fieldNames spare fun parts =>
    Params.mk <$> parts.get "deposit_flag" Tag.read <*> parts.get "commitment_tag" Tag.read <*>
      parts.get "bundle_commit_tag" Tag.read <*> parts.get "initial_workscore" Reader.word <*>
      parts.get "max_combination_size" Reader.longWord <*>
      parts.get "max_packages_per_height" Reader.longWord <*>
      parts.getD "max_buffered_heights" Reader.longWord 16 <*>
      parts.get "sidechains" (SidechainTable.read spare)

def toDatum (p : Params) : Datum := .record [
  ("deposit_flag", .text p.depositFlag.text), ("commitment_tag", .text p.commitmentTag.text),
  ("bundle_commit_tag", .text p.proposalTag.text),
  ("initial_workscore", .integer p.initialScore.toNat),
  ("max_combination_size", .integer p.maxCombination.toNat),
  ("max_packages_per_height", .integer p.maxPackagesPerHeight.toNat),
  ("max_buffered_heights", .integer p.maxBufferedHeights.toNat),
  ("sidechains", p.sidechains.toDatum)]

end Params

end BundleTracker
