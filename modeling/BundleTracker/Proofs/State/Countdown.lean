import Mathlib.Tactic
import BundleTracker.Proofs.State.Changes

/-!
# Two clocks for one period

The blocks left of a record are counted down by the blocks that commit to a state, and the
records of a sidechain are cleared by the height of a block. A record that has at least the
blocks left that the period has is not dropped before the period ends.
-/

namespace BundleTracker

namespace Sidechain

variable {s : Sidechain} {height : Nat}

/-- The blocks left in the period after the block at `height`, with the one that ends it. -/
def remaining (s : Sidechain) (height : Nat) : Nat := s.period.toNat - height % s.period.toNat

theorem remaining_le (s : Sidechain) (height : Nat) : s.remaining height ≤ s.period.toNat :=
  Nat.sub_le _ _

theorem Valid.remaining_pos (hs : s.Valid) (height : Nat) : 0 < s.remaining height :=
  Nat.sub_pos_of_lt (Nat.mod_lt height (UInt16.lt_iff_toNat_lt.mp hs.period_pos))

theorem remaining_succ (h : ¬ s.period.toNat ∣ height + 1) :
    s.remaining (height + 1) = s.remaining height - 1 := by
  have hnext : (height + 1) % s.period.toNat = height % s.period.toNat + 1 := by
    have hquotient := Nat.succ_div_of_not_dvd h
    have hbefore := Nat.div_add_mod height s.period.toNat
    have hafter := Nat.div_add_mod (height + 1) s.period.toNat
    rw [hquotient] at hafter
    omega
  rw [remaining, remaining, hnext]
  omega

theorem elapsesAt_iff {height : UInt64} :
    s.elapsesAt height = true ↔ 0 < height.toNat ∧ s.period.toNat ∣ height.toNat := by
  have hzero : ∀ x : UInt64, x = 0 ↔ x.toNat = 0 := fun x => UInt64.toNat_inj.symm
  simp only [elapsesAt, Bool.and_eq_true, decide_eq_true_eq, beq_iff_eq, UInt64.lt_iff_toNat_lt,
    hzero, UInt64.toNat_mod, UInt16.toNat_toUInt64, Nat.dvd_iff_mod_eq_zero, UInt64.toNat_zero]

end Sidechain

theorem SidechainTable.mem_elapsedAt_iff {table : SidechainTable} {i : UInt8}
    {sidechain : Sidechain} {height : UInt64} (hs : table.get? i = some sidechain)
    (hpos : 0 < height.toNat) :
    i ∈ table.elapsedAt height ↔ sidechain.period.toNat ∣ height.toNat := by
  rw [mem_elapsedAt, hs]
  simp [Sidechain.elapsesAt_iff, hpos]

theorem bundles_prefix_rescore (bundle : Bundle) (workscore period : UInt16)
    (records : List Record) :
    bundles records <+: bundles (rescore bundle workscore period records) := by
  rw [bundles_rescore]
  split_ifs
  · exact List.prefix_rfl
  · exact List.prefix_append _ _

namespace State

variable {s : State} {table : SidechainTable} {p : Params} {blocks : Sidechain → Nat} {i : UInt8}
  {sidechain : Sidechain}

/-- Every record of a registered sidechain has at least so many blocks left. -/
def Lasts (s : State) (table : SidechainTable) (blocks : Sidechain → Nat) : Prop :=
  ∀ ⦃i : UInt8⦄ ⦃sidechain : Sidechain⦄, table.get? i = some sidechain →
    ∀ r ∈ s.on i, blocks sidechain ≤ r.blocksLeft.toNat

theorem bundles_prefix_applyUpdates (s : State) (table : SidechainTable) (updates : List Update)
    (i : UInt8) : bundles (s.on i) <+: bundles ((s.applyUpdates table updates).on i) := by
  refine applyUpdates_induction (Q := fun t => bundles (s.on i) <+: bundles (t.on i))
    List.prefix_rfl ?_ updates
  intro t sidechain digest score _ h
  rw [on_applyScore]
  split_ifs
  · exact h.trans (bundles_prefix_rescore _ _ _ _)
  · exact h

namespace Lasts

theorem empty : State.empty.Lasts table blocks := by
  intro i sidechain hs r hr
  rw [on_empty] at hr
  cases hr

theorem mono {fewer : Sidechain → Nat} (h : s.Lasts table blocks)
    (hle : ∀ sidechain, fewer sidechain ≤ blocks sidechain) : s.Lasts table fewer :=
  fun _ _ hs r hr => (hle _).trans (h hs r hr)

theorem applyUpdates (h : s.Lasts table blocks)
    (hle : ∀ sidechain, blocks sidechain ≤ sidechain.period.toNat) (updates : List Update) :
    (s.applyUpdates table updates).Lasts table blocks := by
  refine applyUpdates_induction (Q := (Lasts · table blocks)) h ?_ updates
  intro s sidechain digest score hs h i other hother r hr
  rw [on_applyScore] at hr
  split_ifs at hr with hi
  · subst hi
    obtain rfl := Option.some.inj (hs.symm.trans hother)
    rcases mem_rescore hr with hr | rfl | ⟨old, hold, -, rfl⟩
    · exact h hs r hr
    · exact hle sidechain
    · exact h hs old hold
  · exact h hother r hr

theorem tick (h : s.Lasts table blocks) :
    s.tick.Lasts table fun sidechain => blocks sidechain - 1 := by
  intro i sidechain hs r hr
  rw [on_tick] at hr
  obtain ⟨old, hold, rfl⟩ := List.mem_map.mp hr
  rw [Record.toNat_blocksLeft_tick]
  exact Nat.sub_le_sub_right (h hs old hold) 1

theorem dropExpired (h : s.Lasts table blocks) : (s.dropExpired table).Lasts table blocks := by
  intro i sidechain hs r hr
  rw [on_dropExpired] at hr
  exact h hs r (List.mem_of_mem_filter hr)

theorem lives (h : s.Lasts table blocks) (hs : table.get? i = some sidechain)
    (hpos : 0 < blocks sidechain) : ∀ r ∈ s.on i, r.lives table = true := by
  intro r hr
  have hleft : 0 < r.blocksLeft :=
    UInt16.lt_iff_toNat_lt.mpr (Nat.lt_of_lt_of_le hpos (h hs r hr))
  rw [Record.lives, decide_eq_true hleft, Bool.true_or]

theorem on_dropExpired (h : s.Lasts table blocks) (hs : table.get? i = some sidechain)
    (hpos : 0 < blocks sidechain) : (s.dropExpired table).on i = s.on i := by
  rw [State.on_dropExpired, List.filter_eq_self]
  exact h.lives hs hpos

theorem sidechain_ne_of_mem_expired (h : s.Lasts table blocks) (hcanonical : s.Canonical)
    (hs : table.get? i = some sidechain) (hpos : 0 < blocks sidechain) {r : Record}
    (hr : r ∈ s.expired table) : r.bundle.sidechain ≠ i := by
  intro hi
  obtain ⟨hmem, hexpired⟩ := List.mem_filter.mp hr
  have hon : r ∈ s.on i := by
    rw [on_eq_filter hcanonical, List.mem_filter]
    exact ⟨hmem, decide_eq_true hi⟩
  rw [h.lives hs hpos r hon] at hexpired
  cases hexpired

/-- The end of periods starts the next ones with full periods, when the others have gone on by
one block. -/
theorem boundary {before : Nat} {height : UInt64} (hheight : height.toNat = before + 1)
    (h : s.Lasts p.sidechains fun sidechain => sidechain.remaining before - 1)
    (proposals : List Bundle) :
    (s.boundary p height proposals).1.Lasts p.sidechains (·.remaining height.toNat) := by
  intro i sidechain hs r hr
  have helapsed : i ∈ p.sidechains.elapsedAt height ↔ sidechain.period.toNat ∣ height.toNat :=
    SidechainTable.mem_elapsedAt_iff hs (by omega)
  by_cases hi : i ∈ p.sidechains.elapsedAt height
  · obtain ⟨other, hother, -, hnew⟩ := mem_on_boundary_of_elapsed hi hr
    obtain rfl := Option.some.inj (hs.symm.trans hother)
    rw [hnew]
    exact sidechain.remaining_le _
  · rw [on_boundary_of_not_elapsed hi] at hr
    rw [helapsed, hheight] at hi
    have hremaining := Sidechain.remaining_succ hi
    rw [← hheight] at hremaining
    exact hremaining.trans_le (h hs r hr)

end Lasts

end State

namespace Candidate

variable {p : Params} {base : State} {blocks : Sidechain → Nat} {i : UInt8} {sidechain : Sidechain}

theorem lasts_build (h : base.Lasts p.sidechains blocks)
    (hle : ∀ sidechain, blocks sidechain ≤ sidechain.period.toNat) (height : UInt64)
    (packages : List Package) (source : Source) :
    (build p base height packages source).state.Lasts p.sidechains
      fun sidechain => blocks sidechain - 1 :=
  (h.applyUpdates hle _).tick.dropExpired

theorem keeps_bundles (h : base.Lasts p.sidechains blocks) (hcanonical : base.Canonical)
    (hle : ∀ sidechain, blocks sidechain ≤ sidechain.period.toNat)
    (hs : p.sidechain? i = some sidechain) (hblocks : 0 < blocks sidechain - 1) (height : UInt64)
    (packages : List Package) (source : Source) :
    bundles (base.on i) <+: bundles ((build p base height packages source).state.on i) ∧
      ∀ r ∈ (build p base height packages source).expired, r.bundle.sidechain ≠ i := by
  have hticked := (h.applyUpdates hle (selected packages source)).tick
  have hform := (hcanonical.applyUpdates p.sidechains (selected packages source)).perform .tick
  constructor
  · have hkept := hticked.on_dropExpired hs hblocks
    rw [State.on_tick] at hkept
    rw [build, hkept, bundles_map_tick]
    exact base.bundles_prefix_applyUpdates _ _ i
  · intro r hr
    exact hticked.sidechain_ne_of_mem_expired hform hs hblocks hr

end Candidate

end BundleTracker
