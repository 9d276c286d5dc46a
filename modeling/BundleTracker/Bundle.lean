import BundleTracker.Hash.Digest

/-!
# Withdrawal bundles

A bundle is named by the sidechain it withdraws from and by its digest.
Bundles are ordered by sidechain and then by the stored bytes of the digest.
-/

namespace BundleTracker

structure Bundle where
  sidechain : UInt8
  digest : Digest
  deriving DecidableEq, Inhabited

namespace Bundle

@[ext] theorem ext {a b : Bundle} (hs : a.sidechain = b.sidechain) (hd : a.digest = b.digest) :
    a = b := by
  cases a; cases b; simp_all

instance : Ord Bundle where
  compare := compareLex (compareOn sidechain) (compareOn digest)

instance : Std.TransOrd Bundle :=
  inferInstanceAs (Std.TransCmp (compareLex (compareOn sidechain) (compareOn digest)))

instance : Std.LawfulEqOrd Bundle where
  compare_self {a} := by
    show (compare a.sidechain a.sidechain).then (compare a.digest a.digest) = .eq
    rw [Std.compare_self, Std.compare_self]
    rfl
  eq_of_compare {a b} h := by
    have h' : (compare a.sidechain b.sidechain).then (compare a.digest b.digest) = .eq := h
    rw [Ordering.then_eq_eq] at h'
    exact Bundle.ext (Std.LawfulEqOrd.eq_of_compare h'.1) (Std.LawfulEqOrd.eq_of_compare h'.2)

end Bundle

end BundleTracker
