import Mathlib.Tactic
import BundleTracker.Proofs.State.Listing
import BundleTracker.Proofs.State.Scores

/-!
# The candidate, sidechain by sidechain

A candidate comes of four changes to a whole state. What they amount to is said here of each
sidechain on its own: its records in order, each with the last score for its bundle and one block
less, then the bundles that are named for the first time, by their digests, and of all of these the
ones that have blocks left or have reached the threshold. Only the last score for each bundle
matters, not where the updates come from.
-/

namespace BundleTracker

theorem isSome_lastScore?_iff {bundle : Bundle} {updates : List Update} :
    (lastScore? bundle updates).isSome ↔ bundle ∈ updates.map (·.bundle) := by
  rw [lastScore?, Option.isSome_map, List.getLast?_isSome, ne_eq, List.filter_eq_nil_iff]
  simp

theorem Bundle.compare_eq_of_sidechain_eq {a b : Bundle} (h : a.sidechain = b.sidechain) :
    compare a b = compare a.digest b.digest := by
  show (compare a.sidechain b.sidechain).then (compare a.digest b.digest) = _
  rw [h, Std.compare_self]
  rfl

theorem Record.tick_eq (r : Record) :
    r.tick = { r with blocksLeft := UInt16.ofNat (r.blocksLeft.toNat - 1) } := by
  have hblocks : r.tick.blocksLeft = UInt16.ofNat (r.blocksLeft.toNat - 1) := by
    have hlt := Nat.lt_of_le_of_lt (Nat.sub_le _ 1) r.blocksLeft.toNat_lt
    rw [← UInt16.toNat_inj, r.toNat_blocksLeft_tick, UInt16.toNat_ofNat_of_lt' hlt]
  calc r.tick = ⟨r.tick.bundle, r.tick.workscore, r.tick.blocksLeft⟩ := rfl
    _ = { r with blocksLeft := UInt16.ofNat (r.blocksLeft.toNat - 1) } := by
      rw [r.bundle_tick, r.workscore_tick, hblocks]

namespace Sidechain

variable {s : Sidechain} {updates others : List Update} {records : List Record} {bundle : Bundle}

/-- The workscore that updates give a bundle of the sidechain, if they name it. -/
def scored? (s : Sidechain) (updates : List Update) (bundle : Bundle) : Option UInt16 :=
  (lastScore? bundle updates).map (clampScore s.period)

/-- The bundles of the sidechain that updates name and no record is of, by their digests. -/
def newcomers (s : Sidechain) (updates : List Update) (records : List Record) : List Bundle :=
  ((updates.map (·.bundle)).filter fun b =>
    b.sidechain = s.index ∧ b ∉ bundles records).dedup.mergeSort
      fun a b => (compare a.digest b.digest).isLE

/-- The records of the sidechain one block later, with those that do not stay. -/
def aged (s : Sidechain) (updates : List Update) (records : List Record) : List Record :=
  (records.map fun r => { r with
      workscore := (s.scored? updates r.bundle).getD r.workscore
      blocksLeft := UInt16.ofNat (r.blocksLeft.toNat - 1) }) ++
    (s.newcomers updates records).filterMap fun b =>
      (s.scored? updates b).map fun workscore => ⟨b, workscore, s.period - 1⟩

def keeps (s : Sidechain) (r : Record) : Bool := r.blocksLeft ≠ 0 ∨ s.threshold ≤ r.workscore

theorem mem_newcomers :
    bundle ∈ s.newcomers updates records ↔
      (lastScore? bundle updates).isSome ∧ bundle.sidechain = s.index ∧
        bundle ∉ bundles records := by
  rw [newcomers, List.mem_mergeSort, List.mem_dedup, List.mem_filter, isSome_lastScore?_iff,
    decide_eq_true_eq]

theorem ascending_newcomers (s : Sidechain) (updates : List Update) (records : List Record) :
    (s.newcomers updates records).Pairwise fun a b => compare a b = .lt := by
  have hsorted : (s.newcomers updates records).Pairwise
      fun a b => (compare a.digest b.digest).isLE = true := by
    refine List.pairwise_mergeSort ?_ ?_ _
    · intro a b c hab hbc
      exact Std.TransCmp.isLE_trans hab hbc
    · intro a b
      have hswap : compare b.digest a.digest = (compare a.digest b.digest).swap :=
        Std.OrientedCmp.eq_swap
      rw [hswap]
      cases compare a.digest b.digest <;> rfl
  have hnodup : (s.newcomers updates records).Nodup :=
    (List.mergeSort_perm _ _).nodup_iff.mpr (List.nodup_dedup _)
  refine (hsorted.and hnodup).imp_of_mem fun {a b} ha hb hab => ?_
  obtain ⟨-, ha, -⟩ := mem_newcomers.mp ha
  obtain ⟨-, hb, -⟩ := mem_newcomers.mp hb
  have hdigest := Bundle.compare_eq_of_sidechain_eq (ha.trans hb.symm)
  have hne : compare a b ≠ .eq := fun heq => hab.2 (Std.compare_eq_iff_eq.mp heq)
  rw [← hdigest] at hab
  cases hcompare : compare a b with
  | lt => rfl
  | eq => exact absurd hcompare hne
  | gt =>
    rw [hcompare] at hab
    cases hab.1

theorem aged_congr (hfiled : ∀ r ∈ records, r.bundle.sidechain = s.index)
    (h : ∀ b : Bundle, b.sidechain = s.index → lastScore? b updates = lastScore? b others) :
    s.aged updates records = s.aged others records := by
  have hnewcomers : s.newcomers updates records = s.newcomers others records := by
    refine eq_of_ascending (s.ascending_newcomers _ _) (s.ascending_newcomers _ _) fun b => ?_
    rw [mem_newcomers, mem_newcomers]
    refine and_congr_left fun hb => ?_
    rw [h b hb.1]
  have hscored : ∀ b : Bundle, b.sidechain = s.index → s.scored? updates b = s.scored? others b :=
    fun b hb => congrArg (Option.map _) (h b hb)
  rw [aged, aged, hnewcomers]
  congr 1
  · refine List.map_congr_left fun r hr => ?_
    rw [hscored _ (hfiled r hr)]
  · refine List.filterMap_congr fun b hb => ?_
    rw [hscored b (mem_newcomers.mp hb).2.1]

end Sidechain

namespace State

variable {s : State} {table : SidechainTable} {sidechain : Sidechain} {i : UInt8}

theorem newcomers_eq (hs : table.get? i = some sidechain) (updates : List Update)
    (records : List Record) :
    ((lastScores updates).keys.filter (·.sidechain = i)).filter (· ∉ bundles records) =
      sidechain.newcomers updates records := by
  have hkeys : (lastScores updates).keys.Pairwise fun a b => compare a b = .lt :=
    Std.ExtTreeMap.ordered_keys
  refine eq_of_ascending ((hkeys.filter _).filter _) (sidechain.ascending_newcomers _ _)
    fun bundle => ?_
  rw [Sidechain.mem_newcomers, table.index_eq hs, List.mem_filter, List.mem_filter,
    Std.ExtTreeMap.mem_keys, mem_lastScores, decide_eq_true_eq, decide_eq_true_eq, and_assoc]

/-- The records of a sidechain one block later, before the ones that do not stay are dropped. -/
theorem on_tick_applyUpdates (hs : table.get? i = some sidechain) (hcanonical : s.Canonical)
    (updates : List Update) :
    (s.applyUpdates table updates).tick.on i = sidechain.aged updates (s.on i) := by
  rw [on_tick, on_applyUpdates hs hcanonical, newcomers_eq hs, List.map_append, List.map_map,
    List.map_map, Sidechain.aged]
  congr 1
  · refine List.map_congr_left fun r _ => ?_
    rw [Function.comp_apply, Record.tick_eq]
    rfl
  · have hpos : 0 < sidechain.period := (table.valid hs).period_pos
    rw [← List.filterMap_eq_map]
    refine List.filterMap_congr fun b hb => ?_
    obtain ⟨score, hscore⟩ := Option.isSome_iff_exists.mp (Sidechain.mem_newcomers.mp hb).1
    simp [Sidechain.scored?, hscore, Record.tick, hpos]

theorem Registered.tick_applyUpdates (h : s.Registered table) (hcanonical : s.Canonical)
    (updates : List Update) : (s.applyUpdates table updates).tick.Registered table := by
  have haged : (s.applyUpdates table updates).tick.Canonical :=
    (hcanonical.applyUpdates table updates).perform .tick
  intro i hi
  rw [mem_sidechains_iff haged, on_tick] at hi
  by_contra hnone
  rw [Option.not_isSome_iff_eq_none] at hnone
  rw [on_applyUpdates_of_unregistered hnone, h.on_eq_nil hnone] at hi
  exact hi rfl

end State

theorem Record.lives_eq_keeps {table : SidechainTable} {sidechain : Sidechain} {r : Record}
    (hs : table.get? r.bundle.sidechain = some sidechain) : r.lives table = sidechain.keeps r := by
  have hpos : 0 < r.blocksLeft ↔ ¬ r.blocksLeft = 0 := UInt16.pos_iff_ne_zero
  simp [lives, hs, Sidechain.keeps, hpos]

namespace Candidate

variable {p : Params} {base : State} {sidechain : Sidechain} {i : UInt8}

theorem on_build (hcanonical : base.Canonical) (hs : p.sidechain? i = some sidechain)
    (height : UInt64) (packages : List Package) (source : Source) :
    (build p base height packages source).state.on i =
      (sidechain.aged (source.updates packages) (base.on i)).filter sidechain.keeps := by
  rw [← selected_eq]
  have haged := (hcanonical.applyUpdates p.sidechains (selected packages source)).perform .tick
  rw [build, State.on_dropExpired, ← State.on_tick_applyUpdates hs hcanonical]
  refine List.filter_congr fun r hr => Record.lives_eq_keeps ?_
  rwa [haged.filed hr]

theorem on_build_of_unregistered (hregistered : base.Registered p.sidechains)
    (hi : p.sidechain? i = none) (height : UInt64) (packages : List Package) (source : Source) :
    (build p base height packages source).state.on i = [] := by
  rw [build, State.on_dropExpired, State.on_tick, State.on_applyUpdates_of_unregistered hi,
    hregistered.on_eq_nil hi]
  rfl

theorem expired_build (hcanonical : base.Canonical) (hregistered : base.Registered p.sidechains)
    (height : UInt64) (packages : List Package) (source : Source) :
    (build p base height packages source).expired =
      p.sidechains.toList.flatMap fun sidechain =>
        (sidechain.aged (source.updates packages) (base.on sidechain.index)).filter
          (!sidechain.keeps ·) := by
  rw [← selected_eq]
  have haged := (hcanonical.applyUpdates p.sidechains (selected packages source)).perform .tick
  rw [build, State.expired,
    (hregistered.tick_applyUpdates hcanonical (selected packages source)).toList_eq_flatMap,
    List.filter_flatMap]
  refine List.flatMap_congr fun sidechain hmem => ?_
  have hs := SidechainTable.mem_toList.mp hmem
  rw [← State.on_tick_applyUpdates hs hcanonical]
  refine List.filter_congr fun r hr => ?_
  rw [Record.lives_eq_keeps (show _ = some sidechain by rwa [haged.filed hr])]

/-- Candidates are the same if the selected updates give the bundles of every registered sidechain
the same scores. -/
theorem build_congr (hcanonical : base.Canonical) (hregistered : base.Registered p.sidechains)
    {height : UInt64} {packages others : List Package} {source other : Source}
    (h : ∀ bundle : Bundle, (p.sidechain? bundle.sidechain).isSome →
      lastScore? bundle (source.updates packages) = lastScore? bundle (other.updates others)) :
    (build p base height packages source).state = (build p base height others other).state ∧
      (build p base height packages source).expired =
        (build p base height others other).expired := by
  have haged : ∀ {i : UInt8} {sidechain : Sidechain}, p.sidechain? i = some sidechain →
      sidechain.aged (source.updates packages) (base.on i) =
        sidechain.aged (other.updates others) (base.on i) := by
    intro i sidechain hs
    have hindex := p.sidechains.index_eq hs
    refine Sidechain.aged_congr (fun r hr => (hcanonical.filed hr).trans hindex.symm) ?_
    intro bundle hbundle
    refine h bundle ?_
    rw [hbundle, hindex, hs]
    rfl
  constructor
  · have hform : ∀ (packages : List Package) (source : Source),
        (build p base height packages source).state.Canonical := fun packages source =>
      ((hcanonical.applyUpdates p.sidechains _).perform .tick).dropExpired p.sidechains
    refine State.eq_of_on_eq (hform _ _) (hform _ _) fun i => ?_
    cases hi : p.sidechain? i with
    | none =>
      rw [on_build_of_unregistered hregistered hi, on_build_of_unregistered hregistered hi]
    | some sidechain => rw [on_build hcanonical hi, on_build hcanonical hi, haged hi]
  · rw [expired_build hcanonical hregistered, expired_build hcanonical hregistered]
    refine List.flatMap_congr fun sidechain hmem => ?_
    rw [haged (SidechainTable.mem_toList.mp hmem)]

/-- A candidate is what its reference definition says. Every registered sidechain has those of its
records that stay one block later, in their order, with the newcomers at the end; no other sidechain
has any; the other records expire, by ascending sidechain; and nothing but the last score for each
bundle of a registered sidechain matters. -/
theorem build_eq_reference (operations : List State.Operation)
    (hregistered : (State.after operations).Registered p.sidechains) (height : UInt64)
    (packages : List Package) (source : Source) :
    let base := State.after operations
    let updates := source.updates packages
    let candidate := build p base height packages source
    (∀ sidechain ∈ p.sidechains.toList, candidate.state.on sidechain.index =
        (sidechain.aged updates (base.on sidechain.index)).filter sidechain.keeps) ∧
      (∀ i, p.sidechain? i = none → candidate.state.on i = []) ∧
      candidate.expired = (p.sidechains.toList.flatMap fun sidechain =>
        (sidechain.aged updates (base.on sidechain.index)).filter (!sidechain.keeps ·)) ∧
      (p.sidechains.toList.map (·.index)).Pairwise (· < ·) ∧
      candidate.hash = candidate.state.hash ∧
      ∀ (others : List Package) (other : Source),
        (∀ bundle : Bundle, (p.sidechain? bundle.sidechain).isSome →
          lastScore? bundle updates = lastScore? bundle (other.updates others)) →
        candidate.state = (build p base height others other).state ∧
          candidate.expired = (build p base height others other).expired ∧
          candidate.hash = (build p base height others other).hash := by
  intro base updates candidate
  have hcanonical : base.Canonical := .after operations
  refine ⟨fun sidechain hmem => on_build hcanonical (SidechainTable.mem_toList.mp hmem) _ _ _,
    fun i hi => on_build_of_unregistered hregistered hi _ _ _,
    expired_build hcanonical hregistered _ _ _, p.sidechains.ascending_toList, rfl, ?_⟩
  intro others other hscores
  obtain ⟨hstate, hexpired⟩ := build_congr hcanonical hregistered hscores
  exact ⟨hstate, hexpired, congrArg State.hash hstate⟩

/-- A tracked bundle expires, and another one is tracked from now on with its score in the package
that is merged last, which is brought into the range. -/
theorem build_eq_reference_of_two_packages :
    let tracked : Bundle := ⟨0, Block.zero 32⟩
    let named : Bundle := ⟨0, ⟨List.replicate 32 1, rfl⟩⟩
    let operations : List State.Operation := [.score ⟨0, "test", 1, 1⟩ tracked.digest 0]
    let packages : List Package :=
      [⟨7, [⟨named, 500⟩, ⟨⟨9, named.digest⟩, 40⟩]⟩, ⟨7, [⟨named, 20⟩]⟩]
    let base := State.after operations
    let candidate := build {} base 7 packages (.combination [1, 0, 4])
    base.Registered ({} : Params).sidechains ∧ base.toList = [⟨tracked, 0, 1⟩] ∧
      candidate.state.on 0 = [⟨named, 300, 299⟩] ∧ candidate.state.on 9 = [] ∧
      candidate.expired = [⟨tracked, 0, 0⟩] := by
  intro tracked named operations packages base candidate
  have hregistered : base.Registered ({} : Params).sidechains := by
    unfold State.Registered
    decide +kernel
  obtain ⟨hon, hnone, hexpired, -⟩ :=
    build_eq_reference operations hregistered 7 packages (.combination [1, 0, 4])
  refine ⟨hregistered, by decide +kernel, ?_, hnone 9 (by decide +kernel), ?_⟩
  · refine (hon ⟨0, "test", 300, 100⟩ (by decide +kernel)).trans ?_
    decide +kernel
  · refine hexpired.trans ?_
    decide +kernel

end Candidate

end BundleTracker
