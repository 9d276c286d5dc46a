import BundleTracker.Candidate.Combination

/-!
# Selections of packages

A candidate merges a selection of the packages that wait at one height: none,
a single one, or a combination of several, named by their ascending positions.
Selections are tried by size, and those of one size in lexicographic order.
-/

namespace BundleTracker

/-- The packages that a candidate merges, by their positions. -/
inductive Source
  | noUpdate
  | package (index : Nat)
  | combination (indices : List Nat)
  deriving DecidableEq

namespace Source

def indices : Source → List Nat
  | .noUpdate => []
  | .package index => [index]
  | .combination indices => indices

def text : Source → String
  | .noUpdate => "no-update"
  | .package index => s!"package #{index}"
  | .combination indices => "packages " ++ "+".intercalate (indices.map fun i => s!"#{i}")

/-- The selections of `size` out of `count` packages. No step of the listing runs into a fault. -/
def ofSize (count : Nat) : Nat → List Source
  | 0 => [.noUpdate]
  | 1 => (List.range count).map .package
  | size =>
    match Combination.list count size with
    | .ok combinations => combinations.map .combination
    | .error _ => []

/-- The sizes of selections out of `count` packages: up to one, and as far as `most` allows. -/
def sizes (count most : Nat) : List Nat := List.range (min count (max 1 most) + 1)

/-- The selections out of `count` packages with combinations of at most `most`, as they are
tried. -/
def all (count most : Nat) : List Source := (sizes count most).flatMap (ofSize count)

end Source

end BundleTracker
