import Mathlib.Tactic
import BundleTracker.Proofs.Node.Coherence

/-!
# The window above the tip

Once there is a tip, a package is taken in exactly if its height is one of the next ones, as many
as the buffer has places. Whatever waits further up, left over from the time before the first
block, gives way to it, and no other height of the window loses a package.
-/

namespace BundleTracker

namespace Node

variable {n : Node} {p : Package} {tip : UInt64}

/-- Comparing a distance that does not wrap is comparing heights as numbers. -/
theorem lt_sub_iff {a b m : UInt64} (h : b ≤ a) : m < a - b ↔ b.toNat + m.toNat < a.toNat := by
  have hle := UInt64.le_iff_toNat_le.mp h
  rw [UInt64.lt_iff_toNat_lt, UInt64.toNat_sub_of_le _ _ h]
  omega

/-- What handing in a package does once there is a tip. -/
inductive AddsAbove (n : Node) (tip : UInt64) (p : Package) : Node × Admission → Prop
  | stale : p.height ≤ tip → AddsAbove n tip p (n, .stale)
  | tooFar : tip < p.height →
      tip.toNat + n.chain.params.maxBufferedHeights.toNat < p.height.toNat →
      AddsAbove n tip p (n, .tooFar)
  | within : tip < p.height →
      p.height.toNat ≤ tip.toNat + n.chain.params.maxBufferedHeights.toNat →
      AddsAbove n tip p ({ n with buffer := (n.buffer.add p).1 }, (n.buffer.add p).2)

theorem addsAbove (htip : n.chain.tip = some tip) (p : Package) :
    n.AddsAbove tip p (n.addPackage p) := by
  unfold addPackage rejects?
  rw [htip, Option.bind_some]
  split_ifs with hstale hfar
  · exact .stale hstale
  · have hlt := UInt64.not_le.mp hstale
    exact .tooFar hlt ((lt_sub_iff (UInt64.le_of_lt hlt)).mp hfar)
  · have hlt := UInt64.not_le.mp hstale
    rw [lt_sub_iff (UInt64.le_of_lt hlt), Nat.not_lt] at hfar
    exact .within hlt hfar

/-- The window above the tip is kept free. A package is stale exactly up to the tip and too far
exactly above the window. Any other waits at its height from then on. In no case does another
height of the window change, whatever waits above it. -/
theorem addPackage_in_window (hn : n.Reachable) (htip : n.chain.tip = some tip) (p : Package) :
    ((n.addPackage p).2 = .stale ↔ p.height ≤ tip) ∧
    ((n.addPackage p).2 = .tooFar ↔
      tip.toNat + n.chain.params.maxBufferedHeights.toNat < p.height.toNat) ∧
    ((n.addPackage p).2 ≠ .stale → (n.addPackage p).2 ≠ .tooFar →
      p ∈ (n.addPackage p).1.buffer.packagesAt p.height) ∧
    ∀ k, tip < k → k.toNat ≤ tip.toNat + n.chain.params.maxBufferedHeights.toNat →
      k ≠ p.height → (n.addPackage p).1.buffer.packagesAt k = n.buffer.packagesAt k := by
  have hstep := addsAbove htip p
  generalize n.addPackage p = result at hstep ⊢
  cases hstep with
  | stale hle =>
    have hnear : p.height.toNat ≤ tip.toNat := UInt64.le_iff_toNat_le.mp hle
    refine ⟨iff_of_true rfl hle, iff_of_false (by simp) (by omega), ?_, fun _ _ _ _ => rfl⟩
    exact fun hne => absurd rfl hne
  | tooFar hlt hfar =>
    refine ⟨iff_of_false (by simp) (UInt64.not_le.mpr hlt), iff_of_true rfl hfar, ?_,
      fun _ _ _ _ => rfl⟩
    exact fun _ hne => absurd rfl hne
  | within hlt hnear =>
    have hlo : tip.toNat < p.height.toNat := UInt64.lt_iff_toNat_lt.mp hlt
    have habove : ∀ k ∈ n.buffer.waiting, tip.toNat < k.toNat :=
      fun k hk => UInt64.lt_iff_toNat_lt.mp (hn.coherent.above tip htip k hk)
    rw [← hn.coherent.maxHeights_eq] at hnear ⊢
    have hroom := Buffer.not_crowded_of_within habove hlo hnear
    have hadmitted := Buffer.admission_of_not_crowded hroom
    refine ⟨iff_of_false ?_ (UInt64.not_le.mpr hlt), iff_of_false ?_ (Nat.not_lt.mpr hnear), ?_, ?_⟩
    · rcases hadmitted with h | h | h <;> simp [h]
    · rcases hadmitted with h | h | h <;> simp [h]
    · exact fun _ _ => Buffer.mem_packagesAt_add hroom
    · exact fun k _ hk hne => Buffer.packagesAt_add_of_within habove hlo hnear hk hne

/-- Both places are taken, one of them since before the first block. That one gives way to a
package for the window, and what waits in the window stays. -/
theorem leftover_gives_way :
    let p : Params := { maxBufferedHeights := 2 }
    let calls : List Call := [.add ⟨50, []⟩, .connect 10 [], .add ⟨11, []⟩]
    let n := (fresh p).run calls
    let near : Package := ⟨12, [⟨⟨0, Block.zero 32⟩, 7⟩]⟩
    n.chain.tip = some 10 ∧ n.buffer.waiting.keys = [11, 50] ∧
      near ∈ (n.addPackage near).1.buffer.packagesAt 12 ∧
      (n.addPackage near).1.buffer.packagesAt 11 = n.buffer.packagesAt 11 := by
  intro p calls n near
  have hstart : start p = .ok (fresh p) := start_of_check (by decide +kernel)
  have hn : n.Reachable := (Reachable.start hstart).run calls
  have htip : n.chain.tip = some 10 := by decide +kernel
  have hkeys : n.buffer.waiting.keys = [11, 50] := by decide +kernel
  obtain ⟨hstale, hfar, htaken, hkept⟩ := addPackage_in_window hn htip near
  refine ⟨htip, hkeys, htaken ?_ ?_, hkept 11 (by decide) (by decide) (by decide)⟩
  · exact fun h => absurd (hstale.mp h) (by decide)
  · exact fun h => absurd (hfar.mp h) (by decide)

end Node

end BundleTracker
