import BundleTracker.Chain.Event
import BundleTracker.Package.Document

/-!
# Events in documents

The fields under which events are written; the field `event` names the kind.
-/

namespace BundleTracker

def Source.toDatum : Source → Datum
  | .noUpdate => .text "no_update"
  | .package index => .record [("package", .integer index)]
  | .combination indices =>
    .record [("combination", .list (indices.map fun i => .integer (Int.ofNat i)))]

namespace Event

def toDatum : Event → Datum
  | .reconciled height hash source expired => .record [
    ("event", .text "reconciled"), ("height", .integer height.toNat), ("hash", hash.toDatum),
    ("source", source.toDatum),
    ("expired", .list (expired.map fun b =>
      .list [.integer b.sidechain.toNat, b.digest.toDatum]))]
  | .stalled stall => .record [
    ("event", .text "stalled"), ("height", .integer stall.height.toNat),
    ("expected", stall.expected.toDatum), ("candidates_tried", .integer stall.tried),
    ("attempt", .integer stall.attempt)]
  | .periodBoundary height boundary => .record [
    ("event", .text "period_boundary"), ("height", .integer height.toNat),
    ("cleared", .list (boundary.cleared.map fun i => .integer i.toNat)),
    ("seeded", .list (boundary.seeded.map Bundle.toDatum))]
  | .reset => .record [("event", .text "reset")]

end Event

end BundleTracker
