import Mathlib.Tactic
import BundleTracker.Proofs.State.Entries

/-!
# The canonical form of states

Whatever operations lead to a state, no entry of it is empty, every record is filed
under its own sidechain, and no bundle occurs twice. The records of one sidechain can
then be picked out of the list of all records, so that list determines the state.
-/

namespace BundleTracker

/-- Some records, all of them on sidechain `i`, with no bundle twice. -/
structure CanonicalEntry (i : UInt8) (records : List Record) : Prop where
  ne_nil : records ≠ []
  filed : ∀ r ∈ records, r.bundle.sidechain = i
  nodup : (bundles records).Nodup

theorem nodup_bundles_rescore {bundle : Bundle} {workscore period : UInt16} {records : List Record}
    (h : (bundles records).Nodup) : (bundles (rescore bundle workscore period records)).Nodup := by
  rw [bundles_rescore]
  split_ifs with hmem
  · exact h
  · exact h.append (List.nodup_singleton bundle) (by simpa using hmem)

theorem nodup_bundles_append {r : Record} {records : List Record}
    (h : (bundles records).Nodup) (hnew : r.bundle ∉ bundles records) :
    (bundles (records ++ [r])).Nodup := by
  rw [bundles_append]
  exact h.append (List.nodup_singleton r.bundle) (by simpa using hnew)

namespace CanonicalEntry

variable {i : UInt8} {records : List Record}

theorem rescore {digest : Digest} {workscore period : UInt16}
    (h : records = [] ∨ CanonicalEntry i records) :
    CanonicalEntry i (rescore ⟨i, digest⟩ workscore period records) where
  ne_nil := rescore_ne_nil records
  filed r hr := by
    rcases h with rfl | h
    · rcases mem_rescore hr with hr | rfl | ⟨old, hold, -⟩
      · simp at hr
      · rfl
      · simp at hold
    · rcases mem_rescore hr with hr | rfl | ⟨old, hold, -, rfl⟩
      · exact h.filed r hr
      · rfl
      · exact h.filed old hold
  nodup := by
    rcases h with rfl | h
    · exact nodup_bundles_rescore List.nodup_nil
    · exact nodup_bundles_rescore h.nodup

theorem tick (h : CanonicalEntry i records) : CanonicalEntry i (records.map Record.tick) where
  ne_nil := by simpa using h.ne_nil
  filed := by
    intro r hr
    obtain ⟨old, hold, rfl⟩ := List.mem_map.mp hr
    rw [Record.bundle_tick]
    exact h.filed old hold
  nodup := by
    rw [bundles_map_tick]
    exact h.nodup

theorem filter (h : CanonicalEntry i records) {keep : Record → Bool}
    (hne : records.filter keep ≠ []) : CanonicalEntry i (records.filter keep) where
  ne_nil := hne
  filed r hr := h.filed r (List.mem_of_mem_filter hr)
  nodup := h.nodup.sublist (bundles_filter_sublist keep records)

theorem append {bundle : Bundle} {workscore blocksLeft : UInt16} (hi : bundle.sidechain = i)
    (hnew : bundle ∉ bundles records) (h : records = [] ∨ CanonicalEntry i records) :
    CanonicalEntry i (records ++ [⟨bundle, workscore, blocksLeft⟩]) where
  ne_nil := by simp
  filed := by
    intro r hr
    rcases List.mem_append.mp hr with hr | hr
    · rcases h with rfl | h
      · simp at hr
      · exact h.filed r hr
    · obtain rfl := List.mem_singleton.mp hr
      exact hi
  nodup := by
    rcases h with rfl | h
    · exact nodup_bundles_append List.nodup_nil hnew
    · exact nodup_bundles_append h.nodup hnew

end CanonicalEntry

namespace State

/-- What can be done to a state, with whatever sidechains, tables and parameters. -/
inductive Operation
  | score (sidechain : Sidechain) (digest : Digest) (score : Int32)
  | tick
  | dropExpired (table : SidechainTable)
  | clearElapsed (table : SidechainTable) (height : UInt64)
  | seed (p : Params) (opened : List UInt8) (proposals : List Bundle)
  | boundary (p : Params) (height : UInt64) (proposals : List Bundle)

def perform (s : State) : Operation → State
  | .score sidechain digest score => s.applyScore sidechain digest score
  | .tick => s.tick
  | .dropExpired table => s.dropExpired table
  | .clearElapsed table height => s.clear (table.elapsedAt height)
  | .seed p opened proposals => (s.seed p opened proposals).1
  | .boundary p height proposals => (s.boundary p height proposals).1

def after (operations : List Operation) : State := operations.foldl perform .empty

/-- No entry is empty, records are filed under their sidechain, and no bundle occurs twice. -/
def Canonical (s : State) : Prop := s.All CanonicalEntry

namespace Canonical

variable {s : State}

theorem seed (h : s.Canonical) (p : Params) (opened : List UInt8) (proposals : List Bundle) :
    (s.seed p opened proposals).1.Canonical :=
  All.seed h (fun _ _ _ _ hnew hold => CanonicalEntry.append rfl hnew hold) proposals

theorem boundary (h : s.Canonical) (p : Params) (height : UInt64) (proposals : List Bundle) :
    (s.boundary p height proposals).1.Canonical := by
  unfold State.boundary
  split
  · exact h
  · exact seed (All.clear h _) p _ proposals

theorem perform (h : s.Canonical) (operation : Operation) : (s.perform operation).Canonical := by
  cases operation with
  | score sidechain digest score =>
    exact All.applyScore h fun records hold => CanonicalEntry.rescore hold
  | tick => exact All.tick h fun i records hold => hold.tick
  | dropExpired table => exact All.dropExpired h fun i records hold hne => hold.filter hne
  | clearElapsed table height => exact All.clear h _
  | seed p opened proposals => exact h.seed p opened proposals
  | boundary p height proposals => exact h.boundary p height proposals

theorem after (operations : List Operation) : (State.after operations).Canonical := by
  have hrun : ∀ s : State, s.Canonical → (operations.foldl State.perform s).Canonical := by
    induction operations with
    | nil => exact fun s hs => hs
    | cons operation rest ih => exact fun s hs => ih _ (hs.perform operation)
  exact hrun .empty All.empty

end Canonical

section Listing

variable {entries : List (UInt8 × List Record)} {i : UInt8}

theorem filter_flatMap_of_not_mem (hfiled : ∀ e ∈ entries, ∀ r ∈ e.2, r.bundle.sidechain = e.1)
    (hi : ∀ e ∈ entries, e.1 ≠ i) :
    (entries.flatMap (·.2)).filter (·.bundle.sidechain = i) = [] := by
  rw [List.filter_eq_nil_iff]
  intro r hr
  obtain ⟨e, he, hre⟩ := List.mem_flatMap.mp hr
  simpa [hfiled e he r hre] using hi e he

/-- With one entry for each sidechain, its records are those of the list that are on it. -/
theorem filter_flatMap_of_mem (hfiled : ∀ e ∈ entries, ∀ r ∈ e.2, r.bundle.sidechain = e.1)
    (hkeys : entries.Pairwise fun a b => a.1 ≠ b.1) {records : List Record}
    (hmem : (i, records) ∈ entries) :
    (entries.flatMap (·.2)).filter (·.bundle.sidechain = i) = records := by
  induction entries with
  | nil => simp at hmem
  | cons e rest ih =>
    obtain ⟨hhead, htail⟩ := List.pairwise_cons.mp hkeys
    have hrest : ∀ e ∈ rest, ∀ r ∈ e.2, r.bundle.sidechain = e.1 :=
      fun e he => hfiled e (List.mem_cons_of_mem _ he)
    rw [List.flatMap_cons, List.filter_append]
    rcases List.mem_cons.mp hmem with rfl | hmem
    · rw [filter_flatMap_of_not_mem hrest (fun e he => (hhead e he).symm), List.append_nil,
        List.filter_eq_self]
      intro r hr
      simpa using hfiled _ List.mem_cons_self r hr
    · rw [ih hrest htail hmem, List.filter_eq_nil_iff.mpr, List.nil_append]
      intro r hr
      have hne : e.1 ≠ i := hhead _ hmem
      simpa [hfiled e List.mem_cons_self r hr] using hne

end Listing

variable {s t : State}

theorem filed_toList (h : s.Canonical) :
    ∀ e ∈ s.tracked.toList, ∀ r ∈ e.2, r.bundle.sidechain = e.1 := by
  intro e he r hr
  exact (h (Std.ExtTreeMap.mem_toList_iff_getElem?_eq_some.mp he)).filed r hr

theorem distinct_keys (s : State) : s.tracked.toList.Pairwise fun a b => a.1 ≠ b.1 :=
  Std.ExtTreeMap.distinct_keys_toList.imp fun hne heq => hne (Std.compare_eq_iff_eq.mpr heq)

theorem on_eq_filter (h : s.Canonical) (i : UInt8) :
    s.on i = s.toList.filter (·.bundle.sidechain = i) := by
  cases hi : s.tracked[i]? with
  | none =>
    rw [on_eq, hi, Option.getD_none, toList, filter_flatMap_of_not_mem (filed_toList h)]
    rintro ⟨j, records⟩ he rfl
    rw [Std.ExtTreeMap.mem_toList_iff_getElem?_eq_some, hi] at he
    cases he
  | some records =>
    rw [on_of_getElem? hi, toList, filter_flatMap_of_mem (filed_toList h) s.distinct_keys]
    exact Std.ExtTreeMap.mem_toList_iff_getElem?_eq_some.mpr hi

theorem getElem?_eq (h : s.Canonical) (i : UInt8) :
    s.tracked[i]? = if s.on i = [] then none else some (s.on i) := by
  cases hi : s.tracked[i]? with
  | none => simp [on_eq, hi]
  | some records => rw [on_of_getElem? hi, if_neg (h hi).ne_nil]

/-- A canonical state is determined by the list of its records. -/
theorem eq_of_toList_eq (hs : s.Canonical) (ht : t.Canonical) (h : s.toList = t.toList) :
    s = t := by
  ext1 i
  rw [getElem?_eq hs, getElem?_eq ht, on_eq_filter hs, on_eq_filter ht, h]

end State

end BundleTracker
