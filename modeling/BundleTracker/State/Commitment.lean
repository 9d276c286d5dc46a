import BundleTracker.Hash.Merkle
import BundleTracker.State.Basic

/-!
# The commitment to a state

A record is written as 37 bytes: sidechain, digest, workscore and blocks left,
the latter two least significant byte first. Their digests are the leaves of a
Merkle tree whose root is bound to the number of records. The empty state
commits to zeros.
-/

namespace BundleTracker

namespace Record

def toBytes (r : Record) : List UInt8 :=
  r.bundle.sidechain :: (r.bundle.digest.toList ++
    LittleEndian.bytes 2 r.workscore.toNat ++ LittleEndian.bytes 2 r.blocksLeft.toNat)

@[simp] theorem length_toBytes (r : Record) : r.toBytes.length = 37 := by simp [toBytes]

def leaf (H : List UInt8 → Digest) (r : Record) : Digest := H r.toBytes

end Record

namespace State

/-- The commitment under the digest function `H`. -/
def commitment (H : List UInt8 → Digest) (s : State) : Digest :=
  Merkle.commit H (s.toList.map (Record.leaf H))

/-- The commitment that blocks carry. -/
def hash (s : State) : Digest := s.commitment sha256d

end State

end BundleTracker
