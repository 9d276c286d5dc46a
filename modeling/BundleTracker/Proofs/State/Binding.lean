import Mathlib.Tactic
import BundleTracker.Proofs.Hash.Binding
import BundleTracker.Proofs.State.Canonical

/-!
# What the commitment to a state binds

The bytes of a record determine it, the leaves are bound by the Merkle commitment,
and the list of records determines a canonical state. So states with one commitment
are equal, whatever operations led to them, or the digest function fails on byte
strings that were hashed for these two commitments.
-/

namespace BundleTracker

theorem Record.toBytes_inj {r q : Record} (h : r.toBytes = q.toBytes) : r = q := by
  obtain ⟨⟨i, d⟩, w, b⟩ := r
  obtain ⟨⟨i', d'⟩, w', b'⟩ := q
  simp only [toBytes, List.cons.injEq] at h
  obtain ⟨hi, hrest⟩ := h
  obtain ⟨hfront, hblocks⟩ := List.append_inj hrest (by simp)
  obtain ⟨hdigest, hscore⟩ := List.append_inj hfront (by simp)
  have hw : w = w' := UInt16.toNat_inj.mp
    (LittleEndian.bytes_inj (w.toNat_lt) (w'.toNat_lt) hscore)
  have hb : b = b' := UInt16.toNat_inj.mp
    (LittleEndian.bytes_inj (b.toNat_lt) (b'.toNat_lt) hblocks)
  rw [hi, Block.ext hdigest, hw, hb]

namespace State

variable (H : List UInt8 → Digest)

def leaves (s : State) : List Digest := s.toList.map (Record.leaf H)

/-- All byte strings that are hashed to commit to a state: the records, and what the Merkle
commitment hashes above their digests. -/
def hashed (s : State) : List (List UInt8) :=
  s.toList.map Record.toBytes ++ Merkle.inputs H (s.leaves H)

theorem leaves_eq_map (s : State) : s.leaves H = (s.toList.map Record.toBytes).map H := by
  rw [List.map_map]
  rfl

@[simp] theorem length_leaves (s : State) : (s.leaves H).length = s.size := by
  simp [leaves, size]

/-- States with the same leaves list the same records, unless two records collide. -/
theorem toList_eq_or_collision {s t : State} (h : s.leaves H = t.leaves H) :
    s.toList = t.toList ∨
      Collision H (s.toList.map Record.toBytes ++ t.toList.map Record.toBytes) := by
  rw [leaves_eq_map, leaves_eq_map] at h
  rcases eq_or_collision_of_map_eq H h with heq | hc
  · exact Or.inl (List.map_injective_iff.mpr (fun _ _ => Record.toBytes_inj) heq)
  · exact Or.inr hc

/-- The commitment binds every state of fewer than `2 ^ 64` records that any operations lead to:
two of them with one commitment are equal, or two different byte strings among those that were
hashed have one digest, or a root with its count hashes to the commitment of the empty state. -/
theorem eq_or_collision_of_commitment_eq (first second : List Operation)
    (hfirst : (after first).size < 2 ^ 64) (hsecond : (after second).size < 2 ^ 64)
    (h : (after first).commitment H = (after second).commitment H) :
    after first = after second ∨
      Collision H ((after first).hashed H ++ (after second).hashed H) ∨
      ∃ x ∈ Merkle.countedRoot H ((after first).leaves H) ++
          Merkle.countedRoot H ((after second).leaves H), H x = Block.zero 32 := by
  have hs := Canonical.after first
  have ht := Canonical.after second
  generalize after first = s at *
  generalize after second = t at *
  have hslen : (s.leaves H).length < 2 ^ 64 := by rwa [length_leaves]
  have htlen : (t.leaves H).length < 2 ^ 64 := by rwa [length_leaves]
  rcases Merkle.eq_or_collision_of_commit_eq H hslen htlen h with hleaves | hc | hz
  · rcases toList_eq_or_collision H hleaves with heq | hc
    · exact Or.inl (eq_of_toList_eq hs ht heq)
    · right
      left
      apply hc.mono_append
      · exact List.subset_append_left _ _
      · exact List.subset_append_left _ _
  · right
    left
    apply hc.mono_append
    · exact List.subset_append_right _ _
    · exact List.subset_append_right _ _
  · exact Or.inr (Or.inr hz)

/-- Two sidechains that are scored in either order, under the digests of blocks. -/
theorem eq_or_collision_of_either_order :
    let first : List Operation := [.score ⟨0, "test", 300, 100⟩ (Block.zero 32) 7,
      .score ⟨1, "hivemind", 300, 100⟩ (Block.zero 32) 9, .tick]
    let second : List Operation := [.score ⟨1, "hivemind", 300, 100⟩ (Block.zero 32) 9,
      .score ⟨0, "test", 300, 100⟩ (Block.zero 32) 7, .tick]
    (after first).size < 2 ^ 64 ∧ (after second).size < 2 ^ 64 ∧
      (after first).commitment sha256d = (after second).commitment sha256d ∧
      (after first = after second ∨
        Collision sha256d ((after first).hashed sha256d ++ (after second).hashed sha256d) ∨
        ∃ x ∈ Merkle.countedRoot sha256d ((after first).leaves sha256d) ++
            Merkle.countedRoot sha256d ((after second).leaves sha256d),
          sha256d x = Block.zero 32) := by
  intro first second
  have hfirst : (after first).size < 2 ^ 64 := by decide +kernel
  have hsecond : (after second).size < 2 ^ 64 := by decide +kernel
  have hlist : (after first).toList = (after second).toList := by decide +kernel
  have h : (after first).commitment sha256d = (after second).commitment sha256d := by
    rw [commitment, commitment, hlist]
  exact ⟨hfirst, hsecond, h, eq_or_collision_of_commitment_eq sha256d first second hfirst hsecond h⟩

end State

end BundleTracker
