import BundleTracker.Hash.Digest
import BundleTracker.Bytes.LittleEndian

/-!
# Merkle roots bound to their leaf count

Neighbours are hashed in pairs, level by level, and an odd node at the end of
a level is paired with itself. Lists of different lengths can therefore share a
root; `commit` hashes the root together with the number of leaves. Everything
is parametric in the digest function.
-/

namespace BundleTracker
namespace Merkle

variable (H : List UInt8 → Digest)

def node (left right : Digest) : Digest := H (left.toList ++ right.toList)

/-- The level above: one node for each pair, the last leaf paired with itself if it is alone. -/
def pairUp : List Digest → List Digest
  | [] => []
  | [x] => [node H x x]
  | x :: y :: rest => node H x y :: pairUp rest

theorem length_pairUp (level : List Digest) : (pairUp H level).length = (level.length + 1) / 2 := by
  fun_induction pairUp H level with
  | case1 => rfl
  | case2 => simp
  | case3 x y rest ih => simp only [List.length_cons, ih]; omega

/-- The root over a list of leaves; no leaves have the zero digest as their root. -/
def root (leaves : List Digest) : Digest :=
  match leaves with
  | [] => Block.zero 32
  | [x] => x
  | x :: y :: rest => root (pairUp H (x :: y :: rest))
  termination_by leaves.length
  decreasing_by simp only [length_pairUp, List.length_cons]; omega

@[simp] theorem root_singleton (x : Digest) : root H [x] = x := by rw [root]

/-- The root hashed with the number of leaves, as eight bytes, least significant first;
all zeros if there are no leaves. -/
def commit (leaves : List Digest) : Digest :=
  if leaves = [] then Block.zero 32
  else H ((root H leaves).toList ++ LittleEndian.bytes 8 leaves.length)

@[simp] theorem commit_nil : commit H [] = Block.zero 32 := rfl

theorem commit_of_ne_nil {leaves : List Digest} (h : leaves ≠ []) :
    commit H leaves = H ((root H leaves).toList ++ LittleEndian.bytes 8 leaves.length) := if_neg h

end Merkle
end BundleTracker
