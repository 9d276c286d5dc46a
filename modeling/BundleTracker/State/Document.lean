import BundleTracker.Package.Document
import BundleTracker.State.Basic

/-!
# States in documents

A state is written as a record with a field for each sidechain, named by its
index, that lists the sidechain's records.
-/

namespace BundleTracker

def Record.toDatum (r : Record) : Datum := .record [
  ("sidechain", .integer r.bundle.sidechain.toNat), ("wt_prime", r.bundle.digest.toDatum),
  ("workscore", .integer r.workscore.toNat), ("blocks_left", .integer r.blocksLeft.toNat)]

def State.toDatum (s : State) : Datum := .record <|
  s.tracked.toList.map fun (i, records) => (toString i, .list (records.map Record.toDatum))

end BundleTracker
