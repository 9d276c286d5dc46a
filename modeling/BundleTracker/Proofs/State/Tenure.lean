import Mathlib.Tactic
import BundleTracker.Proofs.State.Changes

/-!
# Where workscores come from

The tenure of a record are the changes from the one that created it to the last one. The last
update in it that names the bundle decides the workscore. If there is none, the bundle was
proposed in a coinbase and has the initial workscore, with which it does not pass.
-/

namespace BundleTracker

/-- The record of the bundle was created after the changes `before` by `created`, and has been
kept through the changes `later`: the bundle was not tracked before, or its period ended with
`created`, and since then it was always tracked and its period did not end. -/
structure Tenure (p : Params) (bundle : Bundle) (before : List Change) (created : Change)
    (later : List Change) : Prop where
  begins : (State.ofChanges p before).find? bundle = none ∨ created.Ends p bundle.sidechain
  tracked : ∀ done, done <+: later →
    ((State.ofChanges p (before ++ created :: done)).find? bundle).isSome
  unbroken : ∀ x ∈ later, ¬ x.Ends p bundle.sidechain

theorem threshold_le_clampScore_iff {s : Sidechain} (hs : s.Valid) (score : Int32) :
    s.threshold ≤ clampScore s.period score ↔ (s.threshold.toNat : Int) ≤ score.toInt := by
  have hpos : 0 < s.threshold.toNat := UInt16.lt_iff_toNat_lt.mp hs.1
  have hle : s.threshold.toNat ≤ s.period.toNat := UInt16.le_iff_toNat_le.mp hs.2
  have hmin : min score.toInt.toNat s.period.toNat < 2 ^ 16 :=
    Nat.lt_of_le_of_lt (Nat.min_le_right _ _) s.period.toNat_lt
  rw [UInt16.le_iff_toNat_le, clampScore, UInt16.toNat_ofNat_of_lt' hmin]
  omega

namespace State

variable {s : State} {p : Params} {sidechain : Sidechain} {bundle : Bundle}

theorem exists_tenure {changes : List Change}
    (h : ((ofChanges p changes).find? bundle).isSome) :
    ∃ before created later, changes = before ++ created :: later ∧
      Tenure p bundle before created later := by
  induction changes using List.reverseRecOn with
  | nil =>
    rw [ofChanges, find?, List.foldl_nil, on_empty] at h
    cases h
  | append_singleton changes x ih =>
    by_cases hbegins : (ofChanges p changes).find? bundle = none ∨ x.Ends p bundle.sidechain
    · refine ⟨changes, x, [], rfl, hbegins, ?_, ?_⟩
      · intro done hdone
        rw [List.prefix_nil.mp hdone]
        exact h
      · intro y hy
        cases hy
    · obtain ⟨hold, hends⟩ := not_or.mp hbegins
      obtain ⟨before, created, later, rfl, htenure⟩ := ih (Option.isSome_iff_ne_none.mpr hold)
      refine ⟨before, created, later ++ [x], by simp, htenure.begins, ?_, ?_⟩
      · intro done hdone
        rcases List.prefix_concat_iff.mp hdone with rfl | hdone
        · rw [← List.cons_append, ← List.append_assoc]
          exact h
        · exact htenure.tracked done hdone
      · intro y hy
        rcases List.mem_append.mp hy with hy | hy
        · exact htenure.unbroken y hy
        · rwa [List.mem_singleton.mp hy]

theorem passes_iff (hs : p.sidechain? bundle.sidechain = some sidechain) :
    s.passes sidechain bundle.digest = true ↔
      ∃ workscore, s.workscore? bundle = some workscore ∧ sidechain.threshold ≤ workscore := by
  have hbundle : (⟨sidechain.index, bundle.digest⟩ : Bundle) = bundle :=
    Bundle.ext (p.sidechains.index_eq hs) rfl
  rw [passes, hbundle, workscore?]
  cases s.find? bundle <;> simp

end State

namespace Tenure

variable {p : Params} {bundle : Bundle} {before later : List Change} {created x : Change}
  {sidechain : Sidechain}

theorem of_concat (h : Tenure p bundle before created (later ++ [x])) :
    Tenure p bundle before created later where
  begins := h.begins
  tracked done hdone := h.tracked done (hdone.trans (List.prefix_append later [x]))
  unbroken y hy := h.unbroken y (List.mem_append_left [x] hy)

/-- The last update of the tenure that names the bundle decides its workscore. -/
theorem workscore?_eq (hp : p.Valid) (h : Tenure p bundle before created later)
    (hs : p.sidechain? bundle.sidechain = some sidechain) :
    (State.ofChanges p (before ++ created :: later)).workscore? bundle =
      some (((lastScore? bundle ((created :: later).flatMap Change.updates)).map
        (clampScore sidechain.period)).getD p.initialScore) := by
  induction later using List.reverseRecOn with
  | nil =>
    have htracked := h.tracked [] List.prefix_rfl
    rw [State.ofChanges_concat] at htracked ⊢
    rw [List.flatMap_singleton]
    exact (State.workscore?_of_created hp (State.canonical_ofChanges p before) hs h.begins
      htracked).1
  | append_singleton later x ih =>
    have htracked := h.tracked (later ++ [x]) List.prefix_rfl
    have hends := h.unbroken x (List.mem_append_right later List.mem_cons_self)
    rw [← List.cons_append, ← List.append_assoc, State.ofChanges_concat] at htracked ⊢
    rw [State.workscore?_change (State.canonical_ofChanges p _) hs hends htracked,
      ih h.of_concat, List.flatMap_append, lastScore?_append, List.flatMap_singleton]
    cases lastScore? bundle x.updates <;> rfl

theorem created_of_unnamed (hp : p.Valid) (h : Tenure p bundle before created later)
    (hs : p.sidechain? bundle.sidechain = some sidechain)
    (hnone : lastScore? bundle ((created :: later).flatMap Change.updates) = none) :
    ∃ height proposals, created = .boundary height proposals ∧
      bundle.sidechain ∈ p.sidechains.elapsedAt height ∧ bundle ∈ proposals := by
  have htracked := h.tracked [] List.nil_prefix
  rw [State.ofChanges_concat] at htracked
  rw [List.flatMap_cons, lastScore?_append, Option.or_eq_none_iff] at hnone
  exact (State.workscore?_of_created hp (State.canonical_ofChanges p before) hs h.begins
    htracked).2 hnone.2

theorem passes_iff (hp : p.Valid) (h : Tenure p bundle before created later)
    (hs : p.sidechain? bundle.sidechain = some sidechain) :
    (State.ofChanges p (before ++ created :: later)).passes sidechain bundle.digest = true ↔
      ∃ score, lastScore? bundle ((created :: later).flatMap Change.updates) = some score ∧
        (sidechain.threshold.toNat : Int) ≤ score.toInt := by
  have hvalid : sidechain.Valid := p.sidechains.valid hs
  rw [State.passes_iff hs, h.workscore?_eq hp hs]
  cases lastScore? bundle ((created :: later).flatMap Change.updates) with
  | some score => simpa using threshold_le_clampScore_iff hvalid score
  | none => simpa using hp.initialScore_lt_threshold hs

end Tenure

end BundleTracker
