import BundleTracker.Package.Basic
import BundleTracker.Text.Reading

/-!
# Packages in documents

The fields under which bundles, updates and packages are read and written. A
digest is written in its text form.
-/

namespace BundleTracker

variable {ε : Type}

namespace Digest

def read : Reader ε Digest := Reader.ofText ofText?

def toDatum (d : Digest) : Datum := .text d.text

end Digest

namespace Bundle

def read : Reader ε Bundle :=
  Reader.record ["sidechain", "wt_prime"] false fun parts =>
    Bundle.mk <$> parts.get "sidechain" Reader.byte <*> parts.get "wt_prime" Digest.read

def toDatum (b : Bundle) : Datum :=
  .record [("sidechain", .integer b.sidechain.toNat), ("wt_prime", b.digest.toDatum)]

end Bundle

namespace Update

def read : Reader ε Update :=
  Reader.record ["sidechain", "wt_prime", "workscore"] false fun parts =>
    (fun sidechain digest score => ⟨⟨sidechain, digest⟩, score⟩) <$>
      parts.get "sidechain" Reader.byte <*> parts.get "wt_prime" Digest.read <*>
      parts.get "workscore" Reader.score

def toDatum (u : Update) : Datum := .record [
  ("sidechain", .integer u.bundle.sidechain.toNat), ("wt_prime", u.bundle.digest.toDatum),
  ("workscore", .integer u.score.toInt)]

end Update

namespace Package

def read : Reader ε Package :=
  Reader.record ["height", "updates"] false fun parts =>
    Package.mk <$> parts.get "height" Reader.longWord <*>
      parts.get "updates" (Reader.list Update.read)

def toDatum (p : Package) : Datum := .record [
  ("height", .integer p.height.toNat), ("updates", .list (p.updates.map Update.toDatum))]

end Package

end BundleTracker
