import BundleTracker.State.Score

/-!
# Legal states

In a legal state every tracked bundle is on a registered sidechain and occurs
once, and neither its workscore nor its blocks left exceed the period of the
sidechain. The check goes by ascending sidechain and reports the first record
that offends.
-/

namespace BundleTracker

/-- How a state is not legal. -/
inductive Violation
  | duplicateRecord (bundle : Bundle)
  | workscoreTooHigh (bundle : Bundle) (workscore period : UInt16)
  | blocksLeftTooHigh (bundle : Bundle) (blocksLeft period : UInt16)
  | unregistered (sidechain : UInt8)
  deriving DecidableEq

def Violation.message : Violation → String
  | .duplicateRecord b => s!"duplicate record for wt^ {b.digest.text} on sidechain {b.sidechain}"
  | .workscoreTooHigh b workscore period =>
    s!"workscore {workscore} of wt^ {b.digest.text} exceeds period {period} " ++
      s!"of sidechain {b.sidechain}"
  | .blocksLeftTooHigh b blocksLeft period =>
    s!"blocks left {blocksLeft} of wt^ {b.digest.text} exceeds period {period} " ++
      s!"of sidechain {b.sidechain}"
  | .unregistered sidechain => s!"records for unregistered sidechain {sidechain}"

/-- The first offence of a record that comes after those of `earlier`. -/
def Record.offence? (period : UInt16) (earlier : List Bundle) (r : Record) : Option Violation :=
  if r.bundle ∈ earlier then some (.duplicateRecord r.bundle)
  else if period < r.workscore then some (.workscoreTooHigh r.bundle r.workscore period)
  else if period < r.blocksLeft then some (.blocksLeftTooHigh r.bundle r.blocksLeft period)
  else none

/-- The first offence among the records of one sidechain. -/
def firstOffence? (period : UInt16) (earlier : List Bundle) : List Record → Option Violation
  | [] => none
  | r :: rest =>
    (r.offence? period earlier).or (firstOffence? period (r.bundle :: earlier) rest)

namespace State

/-- The first offence of a state. -/
def violation? (s : State) (table : SidechainTable) : Option Violation :=
  s.tracked.toList.findSome? fun (i, records) =>
    match table.get? i with
    | none => some (.unregistered i)
    | some sidechain => firstOffence? sidechain.period [] records

def check (s : State) (table : SidechainTable) : Except Violation Unit :=
  match s.violation? table with
  | none => .ok ()
  | some v => .error v

end State

end BundleTracker
