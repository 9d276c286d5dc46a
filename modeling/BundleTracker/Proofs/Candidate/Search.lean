import Mathlib.Tactic
import BundleTracker.Candidate.Basic
import BundleTracker.Proofs.Candidate.Selections

/-!
# The search for a candidate

The search goes through the selections in their order and stops at the first whose
candidate has the hash. If it stops, it has found the first admissible selection with
the hash; if it does not, no admissible selection has it, and all of them were tried.
-/

namespace BundleTracker

def Source.IsFirst (count most : Nat) (P : Source → Prop) (source : Source) : Prop :=
  source.Admissible count most ∧ P source ∧
    ∀ earlier : Source, earlier.Admissible count most → earlier.Precedes source → ¬ P earlier

theorem Source.isFirst_of_find? {count most : Nat} {p : Source → Bool} {source : Source}
    (h : (all count most).find? p = some source) :
    source.IsFirst count most fun s => p s = true := by
  obtain ⟨hp, before, after, hsplit, hbefore⟩ := List.find?_eq_some_iff_append.mp h
  refine ⟨mem_all_iff.mp (List.mem_of_find?_eq_some h), hp, ?_⟩
  intro earlier hearlier hprec hpe
  have hmem := hearlier.mem_all
  have hordered := pairwise_all count most
  rw [hsplit] at hmem hordered
  obtain ⟨-, hordered, -⟩ := List.pairwise_append.mp hordered
  obtain ⟨hafter, -⟩ := List.pairwise_cons.mp hordered
  rcases List.mem_append.mp hmem with hmem | hmem
  · simpa [hpe] using hbefore earlier hmem
  · rcases List.mem_cons.mp hmem with rfl | hmem
    · exact hprec.irrefl _
    · exact hprec.asymm (hafter earlier hmem)

namespace Candidate

theorem tryEach_eq (build : Source → Candidate) (hash : Digest) (tried : Nat)
    (sources : List Source) :
    tryEach build hash tried sources =
      match sources.find? fun source => (build source).hash = hash with
      | some source => .error (build source)
      | none => .ok (tried + sources.length) := by
  induction sources generalizing tried with
  | nil => rfl
  | cons source rest ih =>
    rw [tryEach, List.foldlM_cons]
    by_cases h : (build source).hash = hash
    · simp only [h, if_true, List.find?_cons, decide_true]
      rfl
    · have hrest := ih (tried + 1)
      simp only [h, if_false, List.find?_cons, decide_false, List.length_cons]
      rw [tryEach] at hrest
      rw [show tried + (rest.length + 1) = tried + 1 + rest.length by omega]
      exact hrest

theorem tryEach_append (build : Source → Candidate) (hash : Digest) (tried : Nat)
    (sources more : List Source) :
    tryEach build hash tried (sources ++ more) =
      tryEach build hash tried sources >>= fun tried => tryEach build hash tried more :=
  List.foldlM_append

theorem foldlM_tryEach (build : Source → Candidate) (hash : Digest) (tried : Nat)
    (ofSize : Nat → List Source) (sizes : List Nat) :
    sizes.foldlM (fun tried size => tryEach build hash tried (ofSize size)) tried =
      tryEach build hash tried (sizes.flatMap ofSize) := by
  induction sizes generalizing tried with
  | nil => rfl
  | cons size rest ih =>
    rw [List.foldlM_cons, List.flatMap_cons, tryEach_append]
    exact bind_congr ih

variable {p : Params} {base : State} {height : UInt64} {packages : List Package} {hash : Digest}

theorem search_eq :
    search p base height packages hash =
      match (Source.all packages.length p.maxCombination.toNat).find? fun source =>
          (build p base height packages source).hash = hash with
      | some source => .ok (build p base height packages source)
      | none => .error (Source.all packages.length p.maxCombination.toNat).length := by
  rw [search, foldlM_tryEach, tryEach_eq, ← Source.all]
  cases (Source.all packages.length p.maxCombination.toNat).find? fun source =>
      (build p base height packages source).hash = hash with
  | none => simp only [Nat.zero_add]
  | some source => rfl

theorem isFirst_of_search {candidate : Candidate}
    (h : search p base height packages hash = .ok candidate) :
    ∃ source : Source,
      source.IsFirst packages.length p.maxCombination.toNat
        (fun s => (build p base height packages s).hash = hash) ∧
      candidate = build p base height packages source := by
  rw [search_eq] at h
  split at h
  · rename_i source hfound
    refine ⟨source, ?_, (Except.ok.inj h).symm⟩
    simpa [Source.IsFirst] using Source.isFirst_of_find? hfound
  · cases h

theorem all_tried_of_search {tried : Nat}
    (h : search p base height packages hash = .error tried) :
    (∀ source : Source, source.Admissible packages.length p.maxCombination.toNat →
      (build p base height packages source).hash ≠ hash) ∧
    tried = ∑ size ∈ Finset.range (min packages.length (max 1 p.maxCombination.toNat) + 1),
      packages.length.choose size := by
  rw [search_eq] at h
  split at h
  · cases h
  · rename_i hnone
    refine ⟨?_, by rw [← Except.error.inj h, Source.length_all]⟩
    intro source hsource
    simpa using List.find?_eq_none.mp hnone source hsource.mem_all

end Candidate

end BundleTracker
