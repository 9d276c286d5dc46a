import Mathlib.Tactic
import BundleTracker.Proofs.State.Legality
import BundleTracker.Proofs.State.Operations

/-!
# The changes that make a state

A canonical state is made by changes: the updates of a selection are committed, periods end,
or everything is forgotten. A change that leaves a bundle tracked gives it the last score in
the change that names it. Without one the workscore stays, or the record is a new one, of a
bundle proposed in a coinbase, and starts with the initial workscore.
-/

namespace BundleTracker

/-- The updates of the packages at the positions that a selection names, in its order; positions
past the end name none. -/
def Source.updates (source : Source) (packages : List Package) : List Update :=
  source.indices.flatMap fun i =>
    match packages[i]? with
    | some p => p.updates
    | none => []

theorem Candidate.selected_eq (packages : List Package) (source : Source) :
    selected packages source = source.updates packages := by
  rw [selected, Source.updates]
  induction source.indices with
  | nil => rfl
  | cons i rest ih => cases h : packages[i]? <;> simp [h, ih]

/-- The score of the last update that names the bundle. -/
def lastScore? (bundle : Bundle) (updates : List Update) : Option Int32 :=
  (updates.filter (·.bundle = bundle)).getLast?.map (·.score)

theorem lastScore?_append (bundle : Bundle) (updates more : List Update) :
    lastScore? bundle (updates ++ more) =
      (lastScore? bundle more).or (lastScore? bundle updates) := by
  rw [lastScore?, List.filter_append, List.getLast?_append, Option.map_or]
  rfl

theorem getElem?_lastScores (updates : List Update) (bundle : Bundle) :
    (lastScores updates)[bundle]? = lastScore? bundle updates := by
  induction updates using List.reverseRecOn with
  | nil => exact Std.ExtTreeMap.getElem?_empty
  | append_singleton updates u ih =>
    have hinsert : lastScores (updates ++ [u]) =
        (lastScores updates).insert u.bundle u.score := List.foldl_append
    rw [hinsert, Std.ExtTreeMap.getElem?_insert, ih, lastScore?_append]
    simp only [Std.LawfulEqCmp.compare_eq_iff_eq]
    by_cases h : u.bundle = bundle <;> simp [lastScore?, h]

namespace State

variable {s : State} {table : SidechainTable} {sidechain : Sidechain} {bundle : Bundle}

def workscore? (s : State) (bundle : Bundle) : Option UInt16 :=
  (s.find? bundle).map (·.workscore)

section Scores

/-- The record of a bundle with a new workscore; a bundle without a record starts with a full
period. -/
def rescored (s : State) (sidechain : Sidechain) (bundle : Bundle) (score : Int32) : Record :=
  ⟨bundle, clampScore sidechain.period score,
    ((s.find? bundle).map (·.blocksLeft)).getD sidechain.period⟩

theorem find?_applyUpdate (hs : table.get? bundle.sidechain = some sidechain) (s : State)
    (other : Bundle) (score : Int32) :
    (s.applyUpdate table other score).find? bundle =
      if other = bundle then some (s.rescored sidechain bundle score) else s.find? bundle := by
  unfold applyUpdate
  split
  · rename_i target htarget
    have hindex : target.index = other.sidechain := table.index_eq htarget
    rw [find?, on_applyScore, hindex]
    by_cases hsame : other.sidechain = bundle.sidechain
    · rw [hsame] at htarget
      obtain rfl := Option.some.inj (hs.symm.trans htarget)
      have hother : (⟨bundle.sidechain, other.digest⟩ : Bundle) = other :=
        Bundle.ext hsame.symm rfl
      rw [if_pos hsame, hother, find?_rescore]
      by_cases heq : other = bundle
      · subst heq
        rfl
      · rw [if_neg heq, if_neg heq]
        rfl
    · have hne : other ≠ bundle := fun h => hsame (congrArg Bundle.sidechain h)
      rw [if_neg hsame, if_neg hne]
      rfl
  · rename_i hnone
    have hne : other ≠ bundle := by
      rintro rfl
      rw [hs] at hnone
      cases hnone
    rw [if_neg hne]

theorem find?_foldl_applyUpdate (hs : table.get? bundle.sidechain = some sidechain) (s : State)
    (scores : List (Bundle × Int32)) :
    (scores.foldl (fun s e => s.applyUpdate table e.1 e.2) s).find? bundle =
      ((scores.filter (·.1 = bundle)).getLast?.map fun e => s.rescored sidechain bundle e.2).or
        (s.find? bundle) := by
  induction scores using List.reverseRecOn with
  | nil => rfl
  | append_singleton scores e ih =>
    rw [List.foldl_append, List.foldl_cons, List.foldl_nil, find?_applyUpdate hs, rescored, ih]
    by_cases h : e.1 = bundle
    · cases hlast : (scores.filter (·.1 = bundle)).getLast? <;> simp [h, rescored]
    · simp [h]

/-- The last score for a bundle decides its workscore; without one its record stays. -/
theorem find?_applyUpdates (hs : table.get? bundle.sidechain = some sidechain) (s : State)
    (updates : List Update) :
    (s.applyUpdates table updates).find? bundle =
      ((lastScore? bundle updates).map (s.rescored sidechain bundle)).or (s.find? bundle) := by
  have hlast : ((lastScores updates).toList.filter (·.1 = bundle)).getLast?.map (·.2) =
      lastScore? bundle updates := by
    rw [← getElem?_lastScores]
    cases hget : ((lastScores updates).toList.filter (·.1 = bundle)).getLast? with
    | some e =>
      obtain ⟨hmem, hkey⟩ := List.mem_filter.mp (List.mem_of_getLast? hget)
      rw [decide_eq_true_eq] at hkey
      rw [Option.map_some, ← hkey]
      exact (Std.ExtTreeMap.mem_toList_iff_getElem?_eq_some.mp hmem).symm
    | none =>
      cases hscore : (lastScores updates)[bundle]? with
      | none => rfl
      | some score =>
        have hmem := Std.ExtTreeMap.mem_toList_iff_getElem?_eq_some.mpr hscore
        have hnil := List.getLast?_eq_none_iff.mp hget
        rw [List.filter_eq_nil_iff] at hnil
        exact absurd (decide_eq_true rfl) (hnil _ hmem)
  rw [applyUpdates, Std.ExtTreeMap.foldl_eq_foldl_toList, find?_foldl_applyUpdate hs, ← hlast,
    Option.map_map]
  rfl

theorem workscore?_applyUpdates (hs : table.get? bundle.sidechain = some sidechain) (s : State)
    (updates : List Update) :
    (s.applyUpdates table updates).workscore? bundle =
      ((lastScore? bundle updates).map (clampScore sidechain.period)).or
        (s.workscore? bundle) := by
  rw [workscore?, find?_applyUpdates hs, Option.map_or, Option.map_map]
  rfl

theorem find?_tick (s : State) (bundle : Bundle) :
    s.tick.find? bundle = (s.find? bundle).map Record.tick := by
  rw [find?, find?, on_tick, List.find?_map]
  simp

theorem workscore?_tick (s : State) (bundle : Bundle) :
    s.tick.workscore? bundle = s.workscore? bundle := by
  rw [workscore?, workscore?, find?_tick, Option.map_map]
  simp [Function.comp_def]

theorem tracked_iff_workscore? : (s.find? bundle).isSome ↔ (s.workscore? bundle).isSome := by
  rw [workscore?, Option.isSome_map]

end Scores

end State

/-- What changes a canonical state: the updates of a selection of packages are committed, in the
order of their arrival; the periods that end with a block are ended; all is forgotten. -/
inductive Change
  | selection (updates : List Update)
  | boundary (height : UInt64) (proposals : List Bundle)
  | reset
  deriving DecidableEq

namespace Change

def updates : Change → List Update
  | .selection updates => updates
  | _ => []

/-- Whether the change ends the records of the sidechain as such. -/
def Ends (p : Params) (i : UInt8) : Change → Prop
  | .selection _ => False
  | .boundary height _ => i ∈ p.sidechains.elapsedAt height
  | .reset => True

end Change

namespace State

variable {s : State} {p : Params} {sidechain : Sidechain} {bundle : Bundle} {x : Change}

def change (p : Params) (s : State) : Change → State
  | .selection updates => (s.applyUpdates p.sidechains updates).tick.dropExpired p.sidechains
  | .boundary height proposals => (s.boundary p height proposals).1
  | .reset => .empty

/-- The state that some changes make. -/
def ofChanges (p : Params) (changes : List Change) : State := changes.foldl (change p) .empty

theorem ofChanges_concat (p : Params) (changes : List Change) (x : Change) :
    ofChanges p (changes ++ [x]) = (ofChanges p changes).change p x := by
  rw [ofChanges, List.foldl_append]
  rfl

section Keeping

theorem Canonical.applyUpdates (h : s.Canonical) (table : SidechainTable)
    (updates : List Update) : (s.applyUpdates table updates).Canonical :=
  applyUpdates_induction h
    (fun _ sidechain digest score _ hs => hs.perform (.score sidechain digest score)) updates

theorem Canonical.change (h : s.Canonical) (p : Params) (x : Change) :
    (s.change p x).Canonical := by
  cases x with
  | selection updates =>
    exact ((h.applyUpdates p.sidechains updates).perform .tick).dropExpired p.sidechains
  | boundary height proposals => exact h.boundary p height proposals
  | reset => exact All.empty

theorem Legal.change (h : s.Legal p.sidechains) (x : Change) :
    (s.change p x).Legal p.sidechains := by
  cases x with
  | selection updates => exact h.settle updates
  | boundary height proposals => exact h.boundary height proposals
  | reset => exact .empty _

theorem canonical_ofChanges (p : Params) (changes : List Change) :
    (ofChanges p changes).Canonical := by
  induction changes using List.reverseRecOn with
  | nil => exact All.empty
  | append_singleton changes x ih =>
    rw [ofChanges_concat]
    exact ih.change p x

theorem legal_ofChanges (p : Params) (changes : List Change) :
    (ofChanges p changes).Legal p.sidechains := by
  induction changes using List.reverseRecOn with
  | nil => exact .empty _
  | append_singleton changes x ih =>
    rw [ofChanges_concat]
    exact ih.change x

theorem Legal.registered (h : s.Legal p.sidechains) (htracked : (s.find? bundle).isSome) :
    ∃ sidechain, p.sidechain? bundle.sidechain = some sidechain := by
  rcases All.on_cases h bundle.sidechain with hnil | hentry
  · rw [find?, hnil] at htracked
    cases htracked
  · obtain ⟨sidechain, hs, -⟩ := hentry.within
    exact ⟨sidechain, hs⟩

end Keeping

section Changes

theorem workscore?_selection (hcanonical : s.Canonical)
    (hs : p.sidechain? bundle.sidechain = some sidechain) {updates : List Update}
    (htracked : ((s.change p (.selection updates)).find? bundle).isSome) :
    (s.change p (.selection updates)).workscore? bundle =
      ((lastScore? bundle updates).map (clampScore sidechain.period)).or
        (s.workscore? bundle) := by
  obtain ⟨r, hr⟩ := Option.isSome_iff_exists.mp htracked
  have hticked : (s.applyUpdates p.sidechains updates).tick.Canonical :=
    (hcanonical.applyUpdates p.sidechains updates).perform .tick
  have hbefore := hr
  rw [change, hticked.find?_dropExpired, Option.filter_eq_some_iff] at hbefore
  have hscored := workscore?_applyUpdates hs s updates
  rw [← workscore?_tick] at hscored
  rw [← hscored, workscore?, workscore?, hr]
  exact congrArg (Option.map (·.workscore)) hbefore.1.symm

theorem workscore?_change (hcanonical : s.Canonical)
    (hs : p.sidechain? bundle.sidechain = some sidechain) (hends : ¬ x.Ends p bundle.sidechain)
    (htracked : ((s.change p x).find? bundle).isSome) :
    (s.change p x).workscore? bundle =
      ((lastScore? bundle x.updates).map (clampScore sidechain.period)).or
        (s.workscore? bundle) := by
  cases x with
  | selection updates => exact workscore?_selection hcanonical hs htracked
  | boundary height proposals =>
    have hon := on_boundary_of_not_elapsed hends s proposals
    rw [workscore?, workscore?, find?, find?, change, hon]
    rfl
  | reset => exact absurd trivial hends

/-- A change that creates a record gives it the last score in it, or starts it with the initial
workscore at the end of a period. -/
theorem workscore?_of_created (hp : p.Valid) (hcanonical : s.Canonical)
    (hs : p.sidechain? bundle.sidechain = some sidechain)
    (hbegins : s.find? bundle = none ∨ x.Ends p bundle.sidechain)
    (htracked : ((s.change p x).find? bundle).isSome) :
    (s.change p x).workscore? bundle =
        some (((lastScore? bundle x.updates).map (clampScore sidechain.period)).getD
          p.initialScore) ∧
      (lastScore? bundle x.updates = none →
        ∃ height proposals, x = .boundary height proposals ∧
          bundle.sidechain ∈ p.sidechains.elapsedAt height ∧ bundle ∈ proposals) := by
  by_cases hends : x.Ends p bundle.sidechain
  · cases x with
    | selection updates => exact hends.elim
    | boundary height proposals =>
      obtain ⟨r, hr⟩ := Option.isSome_iff_exists.mp htracked
      obtain ⟨hmem, rfl⟩ :=
        (hcanonical.change p (.boundary height proposals)).find?_eq_some_iff.mp hr
      obtain ⟨other, hother, hproposed, hnew⟩ := mem_on_boundary_of_elapsed hends hmem
      refine ⟨?_, fun _ => ⟨height, proposals, rfl, hends, hproposed⟩⟩
      obtain rfl := Option.some.inj (hs.symm.trans hother)
      have hinitial : min p.initialScore sidechain.period = p.initialScore := by
        have hlt := hp.initialScore_lt_threshold hs
        have hle := (p.sidechains.valid hs).2
        exact Std.LawfulOrderLeftLeaningMin.min_eq_left _ _
          (UInt16.le_trans (UInt16.le_of_lt hlt) hle)
      rw [workscore?, hr, hnew, Option.map_some, hinitial]
      rfl
    | reset => cases htracked
  · have hnone := hbegins.resolve_right hends
    have hscore := workscore?_change hcanonical hs hends htracked
    have huntracked : s.workscore? bundle = none := by rw [workscore?, hnone]; rfl
    rw [huntracked, Option.or_none] at hscore
    have hsome := tracked_iff_workscore?.mp htracked
    rw [hscore] at hsome
    obtain ⟨score, hlast⟩ := Option.isSome_iff_exists.mp (Option.isSome_map.symm.trans hsome)
    constructor
    · rw [hscore, hlast]
      rfl
    · intro hnever
      rw [hlast] at hnever
      cases hnever

end Changes

end State

theorem Candidate.state_build (p : Params) (base : State) (height : UInt64)
    (packages : List Package) (source : Source) :
    (build p base height packages source).state =
      base.change p (.selection (source.updates packages)) := by
  rw [← selected_eq]
  rfl

end BundleTracker
