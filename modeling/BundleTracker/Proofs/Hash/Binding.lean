import Mathlib.Tactic
import BundleTracker.Bytes.LittleEndian.Lemmas
import BundleTracker.Hash.Merkle

/-!
# What a Merkle commitment binds

The byte strings that are hashed on the way to a commitment are listed, level by
level. Lists of one length are told apart by the strings of a level, since an odd
node is paired with itself at the same place in both. The number of leaves is hashed
with the root, so two lists with one commitment are equal, or two different strings
among those hashed have one digest, or a root with its count hashes to zeros.
-/

namespace BundleTracker

/-- Two different byte strings of the list have the same digest. -/
def Collision (H : List UInt8 → Digest) (inputs : List (List UInt8)) : Prop :=
  ∃ x ∈ inputs, ∃ y ∈ inputs, x ≠ y ∧ H x = H y

theorem Collision.mono {H : List UInt8 → Digest} {inputs more : List (List UInt8)}
    (h : Collision H inputs) (hsub : inputs ⊆ more) : Collision H more := by
  obtain ⟨x, hx, y, hy, hne, heq⟩ := h
  exact ⟨x, hsub hx, y, hsub hy, hne, heq⟩

theorem Collision.mono_append {H : List UInt8 → Digest} {xs ys xs' ys' : List (List UInt8)}
    (h : Collision H (xs ++ ys)) (hxs : xs ⊆ xs') (hys : ys ⊆ ys') : Collision H (xs' ++ ys') := by
  apply h.mono
  intro z hz
  rcases List.mem_append.mp hz with hz | hz
  · exact List.mem_append_left ys' (hxs hz)
  · exact List.mem_append_right xs' (hys hz)

theorem eq_or_collision_of_map_eq (H : List UInt8 → Digest) {xs ys : List (List UInt8)}
    (h : xs.map H = ys.map H) : xs = ys ∨ Collision H (xs ++ ys) := by
  induction xs generalizing ys with
  | nil =>
    left
    exact (List.map_eq_nil_iff.mp h.symm).symm
  | cons x xs ih =>
    cases ys with
    | nil => simp at h
    | cons y ys =>
      simp only [List.map_cons, List.cons.injEq] at h
      by_cases hxy : x = y
      · rcases ih h.2 with heq | hc
        · exact Or.inl (by rw [hxy, heq])
        · exact Or.inr (hc.mono_append (List.subset_cons_self x xs) (List.subset_cons_self y ys))
      · exact Or.inr ⟨x, by simp, y, by simp, hxy, h.1⟩

namespace Merkle

/-- The byte strings that are hashed to form the level above. -/
def pairInputs : List Digest → List (List UInt8)
  | [] => []
  | [x] => [x.toList ++ x.toList]
  | x :: y :: rest => (x.toList ++ y.toList) :: pairInputs rest

theorem pairUp_eq_map (H : List UInt8 → Digest) (level : List Digest) :
    pairUp H level = (pairInputs level).map H := by
  fun_induction pairInputs level with
  | case1 => rfl
  | case2 x => rfl
  | case3 x y rest ih => rw [pairUp, List.map_cons, ih, node]

theorem append_toList_inj {a b c d : Digest} (h : a.toList ++ b.toList = c.toList ++ d.toList) :
    a = c ∧ b = d := by
  obtain ⟨h₁, h₂⟩ := List.append_inj h (by simp)
  exact ⟨Block.ext h₁, Block.ext h₂⟩

theorem pairInputs_inj {xs ys : List Digest} (hlen : xs.length = ys.length)
    (h : pairInputs xs = pairInputs ys) : xs = ys := by
  fun_induction pairInputs xs generalizing ys with
  | case1 => exact (List.length_eq_zero_iff.mp hlen.symm).symm
  | case2 x =>
    obtain ⟨y, rfl⟩ := List.length_eq_one_iff.mp hlen.symm
    have hxy : x.toList ++ x.toList = y.toList ++ y.toList := List.head_eq_of_cons_eq h
    rw [(append_toList_inj hxy).1]
  | case3 x y rest ih =>
    match ys, hlen with
    | x' :: y' :: rest', hlen =>
      simp only [pairInputs, List.cons.injEq] at h
      obtain ⟨rfl, rfl⟩ := append_toList_inj h.1
      rw [ih (by simpa using hlen) h.2]

variable (H : List UInt8 → Digest)

def rootInputs (leaves : List Digest) : List (List UInt8) :=
  match leaves with
  | [] => []
  | [_] => []
  | x :: y :: rest => pairInputs (x :: y :: rest) ++ rootInputs (pairUp H (x :: y :: rest))
  termination_by leaves.length
  decreasing_by simp only [length_pairUp, List.length_cons]; omega

/-- The root with the number of leaves, as it is hashed; no leaves hash nothing. -/
def countedRoot (leaves : List Digest) : List (List UInt8) :=
  if leaves = [] then [] else [(root H leaves).toList ++ LittleEndian.bytes 8 leaves.length]

def inputs (leaves : List Digest) : List (List UInt8) := rootInputs H leaves ++ countedRoot H leaves

theorem eq_or_collision_of_root_eq {xs ys : List Digest} (hlen : xs.length = ys.length)
    (h : root H xs = root H ys) : xs = ys ∨ Collision H (rootInputs H xs ++ rootInputs H ys) := by
  induction hn : xs.length using Nat.strong_induction_on generalizing xs ys with
  | _ n ih =>
    match xs, ys, hlen with
    | [], [], _ => exact Or.inl rfl
    | [x], [y], _ => exact Or.inl (by simpa using h)
    | x :: x' :: xs, y :: y' :: ys, hlen =>
      have hshort : (pairUp H (x :: x' :: xs)).length < n := by
        rw [length_pairUp, ← hn]
        simp only [List.length_cons]
        omega
      have hlen' : (pairUp H (x :: x' :: xs)).length = (pairUp H (y :: y' :: ys)).length := by
        rw [length_pairUp, length_pairUp, hlen]
      have hroot : root H (pairUp H (x :: x' :: xs)) = root H (pairUp H (y :: y' :: ys)) := by
        rwa [root, root] at h
      rw [rootInputs, rootInputs]
      rcases ih _ hshort hlen' hroot rfl with heq | hc
      · rw [pairUp_eq_map, pairUp_eq_map] at heq
        rcases eq_or_collision_of_map_eq H heq with heq | hc
        · exact Or.inl (pairInputs_inj hlen heq)
        · right
          apply hc.mono_append
          · exact List.subset_append_left _ _
          · exact List.subset_append_left _ _
      · right
        apply hc.mono_append
        · exact List.subset_append_right _ _
        · exact List.subset_append_right _ _

theorem commit_eq_of_mem {leaves : List Digest} {x : List UInt8} (hx : x ∈ countedRoot H leaves) :
    commit H leaves = H x := by
  unfold countedRoot at hx
  split_ifs at hx with hnil
  · simp at hx
  · rw [List.mem_singleton.mp hx, commit_of_ne_nil H hnil]

theorem exists_countedRoot {leaves : List Digest} (h : leaves ≠ []) :
    ∃ x, x ∈ countedRoot H leaves ∧
      x = (root H leaves).toList ++ LittleEndian.bytes 8 leaves.length :=
  ⟨_, by simp [countedRoot, h], rfl⟩

/-- A commitment to fewer than `2 ^ 64` leaves binds them, unless two of the strings that are
hashed collide, or a root with its count has the digest of no leaves. -/
theorem eq_or_collision_of_commit_eq {xs ys : List Digest} (hx : xs.length < 2 ^ 64)
    (hy : ys.length < 2 ^ 64) (h : commit H xs = commit H ys) :
    xs = ys ∨ Collision H (inputs H xs ++ inputs H ys) ∨
      ∃ x ∈ countedRoot H xs ++ countedRoot H ys, H x = Block.zero 32 := by
  by_cases hxs : xs = [] <;> by_cases hys : ys = []
  · exact Or.inl (hxs.trans hys.symm)
  · obtain ⟨z, hz, -⟩ := exists_countedRoot H hys
    refine Or.inr (Or.inr ⟨z, List.mem_append_right _ hz, ?_⟩)
    rw [← commit_eq_of_mem H hz, ← h, hxs, commit_nil]
  · obtain ⟨z, hz, -⟩ := exists_countedRoot H hxs
    refine Or.inr (Or.inr ⟨z, List.mem_append_left _ hz, ?_⟩)
    rw [← commit_eq_of_mem H hz, h, hys, commit_nil]
  · obtain ⟨u, hu, hu'⟩ := exists_countedRoot H hxs
    obtain ⟨v, hv, hv'⟩ := exists_countedRoot H hys
    rw [commit_eq_of_mem H hu, commit_eq_of_mem H hv] at h
    by_cases huv : u = v
    · rw [hu', hv'] at huv
      obtain ⟨hroot, hcount⟩ := List.append_inj huv (by simp)
      have hlen : xs.length = ys.length :=
        LittleEndian.bytes_inj (by norm_num; omega) (by norm_num; omega) hcount
      rcases eq_or_collision_of_root_eq H hlen (Block.ext hroot) with heq | hc
      · exact Or.inl heq
      · right
        left
        apply hc.mono_append
        · exact List.subset_append_left _ _
        · exact List.subset_append_left _ _
    · refine Or.inr (Or.inl ⟨u, ?_, v, ?_, huv, h⟩)
      · simp [inputs, hu]
      · simp [inputs, hv]

end Merkle

end BundleTracker
