import BundleTracker.State.Score

/-!
# Verification windows

Every block takes one from the blocks left of each record. A record without
blocks left stays only if its bundle has reached the threshold. When a period
of a sidechain ends, all its records go, and the bundles that the coinbase
proposes for it are tracked afresh.
-/

namespace BundleTracker

namespace Record

/-- One block less, down to none. -/
def tick (r : Record) : Record :=
  if 0 < r.blocksLeft then { r with blocksLeft := r.blocksLeft - 1 } else r

/-- Whether the record stays: it has blocks left, or its bundle has reached the threshold. -/
def lives (table : SidechainTable) (r : Record) : Bool :=
  0 < r.blocksLeft ||
    (table.get? r.bundle.sidechain).any fun s => s.threshold ≤ r.workscore

end Record

/-- What the end of a period does: the sidechains that were cleared, and the proposed bundles
that are tracked from now on. -/
structure Boundary where
  cleared : List UInt8
  seeded : List Bundle
  deriving DecidableEq

/-- The sidechains with a period that ends at `height`, in ascending order. -/
def SidechainTable.elapsedAt (table : SidechainTable) (height : UInt64) : List UInt8 :=
  (table.toList.filter (·.elapsesAt height)).map (·.index)

namespace State

def tick (s : State) : State where
  tracked := s.tracked.map fun _ records => records.map Record.tick

/-- The state without the records that do not stay. -/
def dropExpired (s : State) (table : SidechainTable) : State where
  tracked := s.tracked.filterMap fun _ records =>
    match records.filter (Record.lives table) with
    | [] => none
    | kept => some kept

/-- The records that do not stay. -/
def expired (s : State) (table : SidechainTable) : List Record :=
  s.toList.filter fun r => !r.lives table

/-- The state without the records of these sidechains. -/
def clear (s : State) (sidechains : List UInt8) : State where
  tracked := sidechains.foldl (fun tracked i => tracked.erase i) s.tracked

/-- Whether `bundle` may be tracked afresh: its sidechain is registered and among `opened`, and it
is not tracked yet. -/
def admits (s : State) (p : Params) (opened : List UInt8) (bundle : Bundle) : Option Sidechain :=
  match p.sidechain? bundle.sidechain with
  | some sidechain =>
    if bundle.sidechain ∈ opened ∧ s.find? bundle = none then some sidechain else none
  | none => none

/-- Tracks a proposed bundle with the initial workscore. -/
def track (s : State) (p : Params) (sidechain : Sidechain) (bundle : Bundle) : State where
  tracked := s.tracked.insert bundle.sidechain
    (s.on bundle.sidechain ++ [⟨bundle, min p.initialScore sidechain.period, sidechain.period⟩])

/-- Tracks the proposed bundles that are admitted, and lists them. -/
def seed (s : State) (p : Params) (opened : List UInt8) : List Bundle → State × List Bundle
  | [] => (s, [])
  | bundle :: rest =>
    match s.admits p opened bundle with
    | some sidechain =>
      let (s, seeded) := seed (s.track p sidechain bundle) p opened rest
      (s, bundle :: seeded)
    | none => seed s p opened rest

/-- Ends the periods that end at `height`. -/
def boundary (s : State) (p : Params) (height : UInt64) (proposals : List Bundle) :
    State × Boundary :=
  match p.sidechains.elapsedAt height with
  | [] => (s, ⟨[], []⟩)
  | cleared =>
    let (s, seeded) := (s.clear cleared).seed p cleared proposals
    (s, ⟨cleared, seeded⟩)

end State

end BundleTracker
