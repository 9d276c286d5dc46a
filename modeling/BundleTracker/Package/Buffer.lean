import BundleTracker.Package.Basic

/-!
# The buffer of packages

Packages wait under their height, oldest first, until the block at that height
is processed. The number of packages at one height and the number of heights
are limited: a full height gives up its oldest package, and a full buffer gives
up its highest height in favour of a lower one.
-/

namespace BundleTracker

/-- What becomes of a package that is handed in. -/
inductive Admission
  | buffered
  /-- Taken in place of the oldest package of its height. -/
  | replaced
  | duplicate
  /-- Its height is already settled. -/
  | stale
  | tooFar
  deriving DecidableEq

def Admission.text : Admission → String
  | .buffered => "Buffered"
  | .replaced => "Replaced"
  | .duplicate => "Duplicate"
  | .stale => "Stale"
  | .tooFar => "TooFar"

structure Buffer where
  maxPerHeight : Nat
  maxHeights : Nat
  /-- The packages that wait at each height, oldest first. -/
  waiting : Std.ExtTreeMap UInt64 (List Package) := ∅
  deriving DecidableEq

namespace Buffer

def packagesAt (b : Buffer) (height : UInt64) : List Package := b.waiting.getD height []

/-- The number of packages. -/
def size (b : Buffer) : Nat := (b.waiting.toList.flatMap (·.2)).length

/-- The buffer with a place for `height`, if there is one or can be made. -/
def makeRoom? (b : Buffer) (height : UInt64) : Option Buffer :=
  if b.waiting.contains height ∨ b.waiting.size < b.maxHeights then some b
  else
    match b.waiting.maxKey? with
    | some highest =>
      if height < highest then some { b with waiting := b.waiting.erase highest } else none
    | none => none

/-- Puts a package behind those of its height, which are not full or give up the oldest. -/
def store (b : Buffer) (p : Package) : Buffer × Admission :=
  let held := b.packagesAt p.height
  if p ∈ held then (b, .duplicate)
  else if b.maxPerHeight ≤ held.length then
    ({ b with waiting := b.waiting.insert p.height (held.tail ++ [p]) }, .replaced)
  else ({ b with waiting := b.waiting.insert p.height (held ++ [p]) }, .buffered)

def add (b : Buffer) (p : Package) : Buffer × Admission :=
  match b.makeRoom? p.height with
  | some b => b.store p
  | none => (b, .tooFar)

def clear (b : Buffer) : Buffer := { b with waiting := ∅ }

/-- Drops the packages up to and including `height`. All are dropped with the greatest height, after
which no height comes. -/
def pruneThrough (b : Buffer) (height : UInt64) : Buffer :=
  let kept := { b with waiting := b.waiting.filter fun h _ => nextHeight height ≤ h }
  if height = 0xffffffffffffffff then kept.clear else kept

end Buffer

end BundleTracker
