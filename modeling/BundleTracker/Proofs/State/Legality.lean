import Mathlib.Tactic
import BundleTracker.State.Legal
import BundleTracker.Proofs.State.Canonical

/-!
# Legal states

The check of a state succeeds exactly on the legal ones: the sidechains with records
are registered, no bundle occurs twice, and workscores and blocks left stay within the
period. Candidates on top of a legal state are legal, and so is a legal state after the
end of periods.
-/

namespace BundleTracker

structure LegalEntry (table : SidechainTable) (i : UInt8) (records : List Record) : Prop where
  within : ∃ sidechain, table.get? i = some sidechain ∧
    ∀ r ∈ records, r.workscore ≤ sidechain.period ∧ r.blocksLeft ≤ sidechain.period
  nodup : (bundles records).Nodup

theorem Record.offence?_eq_none_iff {period : UInt16} {earlier : List Bundle} {r : Record} :
    r.offence? period earlier = none ↔
      r.bundle ∉ earlier ∧ r.workscore ≤ period ∧ r.blocksLeft ≤ period := by
  unfold offence?
  split_ifs with hmem hscore hblocks
  · simp [hmem]
  · simp [hscore]
  · simp [hblocks]
  · simp only [true_iff]
    exact ⟨hmem, UInt16.not_lt.mp hscore, UInt16.not_lt.mp hblocks⟩

theorem firstOffence?_eq_none_iff {period : UInt16} {earlier : List Bundle}
    {records : List Record} :
    firstOffence? period earlier records = none ↔
      (∀ r ∈ records, r.bundle ∉ earlier ∧ r.workscore ≤ period ∧ r.blocksLeft ≤ period) ∧
        (bundles records).Nodup := by
  induction records generalizing earlier with
  | nil => simp [firstOffence?]
  | cons r rest ih =>
    rw [firstOffence?, Option.or_eq_none_iff, ih, Record.offence?_eq_none_iff, bundles_cons,
      List.nodup_cons]
    constructor
    · rintro ⟨hr, hrest, hnodup⟩
      refine ⟨?_, ?_, hnodup⟩
      · intro q hq
        rcases List.mem_cons.mp hq with rfl | hq
        · exact hr
        · exact ⟨fun h => (hrest q hq).1 (List.mem_cons_of_mem _ h), (hrest q hq).2⟩
      · intro h
        obtain ⟨q, hq, hqr⟩ := List.mem_map.mp h
        exact (hrest q hq).1 (by rw [hqr]; exact List.mem_cons_self)
    · rintro ⟨hall, hnew, hnodup⟩
      refine ⟨hall r List.mem_cons_self, ?_, hnodup⟩
      intro q hq
      obtain ⟨hearlier, hbounds⟩ := hall q (List.mem_cons_of_mem _ hq)
      refine ⟨?_, hbounds⟩
      intro h
      rcases List.mem_cons.mp h with h | h
      · exact hnew (h ▸ List.mem_map_of_mem hq)
      · exact hearlier h

theorem clampScore_le (period : UInt16) (score : Int32) : clampScore period score ≤ period := by
  have hmin : min score.toInt.toNat period.toNat ≤ period.toNat := Nat.min_le_right _ _
  rw [UInt16.le_iff_toNat_le, clampScore,
    UInt16.toNat_ofNat_of_lt' (Nat.lt_of_le_of_lt hmin period.toNat_lt)]
  exact hmin

namespace LegalEntry

variable {table : SidechainTable} {i : UInt8} {records : List Record}

theorem rescore {sidechain : Sidechain} {digest : Digest} {score : Int32}
    (hs : table.get? sidechain.index = some sidechain)
    (h : records = [] ∨ LegalEntry table sidechain.index records) :
    LegalEntry table sidechain.index (rescore ⟨sidechain.index, digest⟩
      (clampScore sidechain.period score) sidechain.period records) where
  within := by
    have hold : ∀ r ∈ records,
        r.workscore ≤ sidechain.period ∧ r.blocksLeft ≤ sidechain.period := by
      rcases h with rfl | h
      · simp
      · obtain ⟨other, hother, hbounds⟩ := h.within
        obtain rfl := Option.some.inj (hs.symm.trans hother)
        exact hbounds
    refine ⟨sidechain, hs, ?_⟩
    intro r hr
    rcases mem_rescore hr with hr | rfl | ⟨old, hmem, -, rfl⟩
    · exact hold r hr
    · exact ⟨clampScore_le _ _, UInt16.le_refl _⟩
    · exact ⟨clampScore_le _ _, (hold old hmem).2⟩
  nodup := by
    rcases h with rfl | h
    · exact nodup_bundles_rescore List.nodup_nil
    · exact nodup_bundles_rescore h.nodup

theorem tick (h : LegalEntry table i records) : LegalEntry table i (records.map Record.tick) where
  within := by
    obtain ⟨sidechain, hs, hbounds⟩ := h.within
    refine ⟨sidechain, hs, ?_⟩
    intro r hr
    obtain ⟨old, hold, rfl⟩ := List.mem_map.mp hr
    rw [Record.workscore_tick]
    exact ⟨(hbounds old hold).1, UInt16.le_trans old.blocksLeft_tick_le (hbounds old hold).2⟩
  nodup := by
    rw [bundles_map_tick]
    exact h.nodup

theorem filter (h : LegalEntry table i records) (keep : Record → Bool) :
    LegalEntry table i (records.filter keep) where
  within := by
    obtain ⟨sidechain, hs, hbounds⟩ := h.within
    exact ⟨sidechain, hs, fun r hr => hbounds r (List.mem_of_mem_filter hr)⟩
  nodup := h.nodup.sublist (bundles_filter_sublist keep records)

theorem append {sidechain : Sidechain} {bundle : Bundle} {initial : UInt16}
    (hs : table.get? bundle.sidechain = some sidechain) (hnew : bundle ∉ bundles records)
    (h : records = [] ∨ LegalEntry table bundle.sidechain records) :
    LegalEntry table bundle.sidechain
      (records ++ [⟨bundle, min initial sidechain.period, sidechain.period⟩]) where
  within := by
    refine ⟨sidechain, hs, ?_⟩
    intro r hr
    rcases List.mem_append.mp hr with hr | hr
    · rcases h with rfl | h
      · simp at hr
      · obtain ⟨other, hother, hbounds⟩ := h.within
        obtain rfl := Option.some.inj (hs.symm.trans hother)
        exact hbounds r hr
    · obtain rfl := List.mem_singleton.mp hr
      exact ⟨Std.min_le_right, UInt16.le_refl _⟩
  nodup := by
    rcases h with rfl | h
    · exact nodup_bundles_append List.nodup_nil hnew
    · exact nodup_bundles_append h.nodup hnew

end LegalEntry

namespace State

/-- Every sidechain with records is registered, and its records are as a legal state has them. -/
def Legal (s : State) (table : SidechainTable) : Prop := s.All (LegalEntry table)

theorem check_eq_ok_iff_legal {s : State} {table : SidechainTable} :
    s.check table = .ok () ↔ s.Legal table := by
  have hcheck : s.check table = .ok () ↔ s.violation? table = none := by
    unfold check
    split <;> simp [*]
  rw [hcheck, violation?, List.findSome?_eq_none_iff]
  constructor
  · intro h i records hi
    have hentry := h (i, records) (Std.ExtTreeMap.mem_toList_iff_getElem?_eq_some.mpr hi)
    dsimp only at hentry
    split at hentry
    · cases hentry
    · rename_i sidechain hs
      obtain ⟨hall, hnodup⟩ := firstOffence?_eq_none_iff.mp hentry
      exact ⟨⟨sidechain, hs, fun r hr => (hall r hr).2⟩, hnodup⟩
  · rintro h ⟨i, records⟩ hi
    have hentry := h (Std.ExtTreeMap.mem_toList_iff_getElem?_eq_some.mp hi)
    obtain ⟨sidechain, hs, hbounds⟩ := hentry.within
    dsimp only
    rw [hs]
    exact firstOffence?_eq_none_iff.mpr
      ⟨fun r hr => ⟨List.not_mem_nil, hbounds r hr⟩, hentry.nodup⟩

namespace Legal

variable {s : State} {p : Params}

theorem empty (table : SidechainTable) : State.empty.Legal table := All.empty

theorem applyUpdates {table : SidechainTable} (h : s.Legal table) (updates : List Update) :
    (s.applyUpdates table updates).Legal table := by
  refine applyUpdates_induction h ?_ updates
  intro s sidechain digest score hs h
  exact All.applyScore h fun records hold => LegalEntry.rescore hs hold

theorem settle {table : SidechainTable} (h : s.Legal table) (updates : List Update) :
    ((s.applyUpdates table updates).tick.dropExpired table).Legal table := by
  have hticked := All.tick (h.applyUpdates updates) fun i records hold => hold.tick
  exact All.dropExpired hticked fun i records hold _ => hold.filter _

/-- Every candidate on top of a legal state is legal. -/
theorem build (h : s.Legal p.sidechains) (height : UInt64) (packages : List Package)
    (source : Source) : (Candidate.build p s height packages source).state.Legal p.sidechains :=
  h.settle (Candidate.selected packages source)

theorem boundary (h : s.Legal p.sidechains) (height : UInt64) (proposals : List Bundle) :
    (s.boundary p height proposals).1.Legal p.sidechains := by
  unfold State.boundary
  split
  · exact h
  · exact All.seed (All.clear h _)
      (fun _ _ _ hs hnew hold => LegalEntry.append hs hnew hold) proposals

end Legal

end State

end BundleTracker
