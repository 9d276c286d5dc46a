import Mathlib.Tactic
import BundleTracker.Proofs.Script.Coinbase

/-!
# Coinbase data among other outputs

Outputs that were built for a commitment and for proposals are read back wherever they stand in a
coinbase. The proposals come in the order of the outputs. The commitments have to agree: whether
they do, and on what, depends on the set of the outputs alone, and only the report of a conflict
depends on their order.
-/

namespace BundleTracker

namespace Coinbase

variable {tag commitmentTag proposalTag : Tag} {outputs others : List Output}
  {hash first second : Digest}

/-- The output carries the tag and the hash, and nothing else. -/
def Commits (tag : Tag) (hash : Digest) (output : Output) : Prop :=
  Carries (tag.toList ++ hash.toList) output.script

/-- The output that commits to `first` is the first commitment, and the one that commits to `second`
is the first with another hash. -/
inductive Conflicting (tag : Tag) (first second : Digest) : List Output → Prop
  | mk {front middle back : List Output} {a b : Output} :
      (∀ output ∈ front, ∀ hash, ¬ Commits tag hash output) → Commits tag first a →
      (∀ output ∈ middle, ∀ hash, Commits tag hash output → hash = first) →
      Commits tag second b → second ≠ first →
      Conflicting tag first second (front ++ a :: (middle ++ b :: back))

section Agreeing

variable {hashes : List Digest}

/-- How commitments agree or do not: there is none, or all are one hash, or one differs from the
first. -/
theorem agreed_cases (hashes : List Digest) :
    hashes = [] ∧ agreed hashes = .ok none ∨
      (∃ hash ∈ hashes, (∀ other ∈ hashes, other = hash) ∧ agreed hashes = .ok (some hash)) ∨
      ∃ first same second rest, hashes = first :: (same ++ second :: rest) ∧
        (∀ hash ∈ same, hash = first) ∧ second ≠ first ∧
        agreed hashes = .error ⟨first, second⟩ := by
  cases hashes with
  | nil => exact Or.inl ⟨rfl, rfl⟩
  | cons first rest =>
    right
    cases hfind : rest.find? (· ≠ first) with
    | none =>
      left
      refine ⟨first, List.mem_cons_self, ?_, by rw [agreed, hfind]⟩
      simpa using hfind
    | some second =>
      right
      obtain ⟨hne, same, others, rfl, hsame⟩ := List.find?_eq_some_iff_append.mp hfind
      refine ⟨first, same, second, others, rfl, ?_, by simpa using hne, by rw [agreed, hfind]⟩
      simpa using hsame

theorem agreed_eq_none_iff : agreed hashes = .ok none ↔ hashes = [] := by
  constructor
  · intro h
    rcases agreed_cases hashes with ⟨hnil, -⟩ | ⟨_, -, -, heq⟩ | ⟨_, _, _, _, -, -, -, heq⟩
    · exact hnil
    · simp [heq] at h
    · simp [heq] at h
  · rintro rfl
    rfl

theorem agreed_eq_some_iff :
    agreed hashes = .ok (some hash) ↔ hash ∈ hashes ∧ ∀ other ∈ hashes, other = hash := by
  rcases agreed_cases hashes with
    ⟨rfl, heq⟩ | ⟨agreement, hmem, hall, heq⟩ | ⟨first, same, second, rest, rfl, -, hne, heq⟩
  · simp [heq]
  · rw [heq, Except.ok.injEq, Option.some.injEq]
    constructor
    · rintro rfl
      exact ⟨hmem, hall⟩
    · rintro ⟨-, hall'⟩
      exact hall' agreement hmem
  · rw [heq]
    simp only [reduceCtorEq, false_iff]
    rintro ⟨-, hall⟩
    exact hne ((hall second (by simp)).trans (hall first (by simp)).symm)

theorem agreed_eq_error_iff :
    agreed hashes = .error ⟨first, second⟩ ↔
      ∃ same rest, hashes = first :: (same ++ second :: rest) ∧
        (∀ hash ∈ same, hash = first) ∧ second ≠ first := by
  constructor
  · intro h
    rcases agreed_cases hashes with
      ⟨-, heq⟩ | ⟨_, -, -, heq⟩ | ⟨_, same, _, rest, hsplit, hsame, hne, heq⟩
    · simp [heq] at h
    · simp [heq] at h
    · rw [heq, Except.error.injEq, Conflict.mk.injEq] at h
      obtain ⟨rfl, rfl⟩ := h
      exact ⟨same, rest, hsplit, hsame, hne⟩
  · rintro ⟨same, rest, rfl, hsame, hne⟩
    have hfind : (same ++ second :: rest).find? (· ≠ first) = some second := by
      rw [List.find?_eq_some_iff_append]
      exact ⟨by simpa using hne, same, rest, rfl, by simpa using hsame⟩
    rw [agreed, hfind]

end Agreeing

section Outputs

def commitments (tag : Tag) (outputs : List Output) : List Digest :=
  outputs.filterMap fun output => commitment? tag output.script

theorem findCommitment_eq : findCommitment tag outputs = agreed (commitments tag outputs) := rfl

theorem commits_iff {output : Output} :
    Commits tag hash output ↔ commitment? tag output.script = some hash :=
  commitment?_eq_some_iff.symm

@[simp] theorem commitments_append (tag : Tag) (outputs others : List Output) :
    commitments tag (outputs ++ others) = commitments tag outputs ++ commitments tag others :=
  List.filterMap_append

theorem commitments_cons_of_commits {output : Output} (h : Commits tag hash output) :
    commitments tag (output :: outputs) = hash :: commitments tag outputs :=
  List.filterMap_cons_some (commits_iff.mp h)

theorem mem_commitments : hash ∈ commitments tag outputs ↔ ∃ o ∈ outputs, Commits tag hash o := by
  simp only [commitments, List.mem_filterMap, commits_iff]

theorem commitments_eq_nil_iff :
    commitments tag outputs = [] ↔ ∀ o ∈ outputs, ∀ hash, ¬ Commits tag hash o := by
  rw [List.eq_nil_iff_forall_not_mem]
  simp only [mem_commitments, not_exists, not_and]
  exact ⟨fun h o ho hash => h hash o ho, fun h hash o ho => h o ho hash⟩

theorem findCommitment_eq_none_iff :
    findCommitment tag outputs = .ok none ↔ ∀ o ∈ outputs, ∀ hash, ¬ Commits tag hash o := by
  rw [findCommitment_eq, agreed_eq_none_iff, commitments_eq_nil_iff]

theorem findCommitment_eq_some_iff :
    findCommitment tag outputs = .ok (some hash) ↔
      (∃ o ∈ outputs, Commits tag hash o) ∧
        ∀ o ∈ outputs, ∀ other, Commits tag other o → other = hash := by
  rw [findCommitment_eq, agreed_eq_some_iff, mem_commitments]
  refine and_congr_right fun _ => ?_
  simp only [mem_commitments, forall_exists_index, and_imp]
  exact ⟨fun h o ho other => h other o ho, fun h other o ho => h o ho other⟩

theorem findCommitment_eq_error_iff :
    findCommitment tag outputs = .error ⟨first, second⟩ ↔
      Conflicting tag first second outputs := by
  rw [findCommitment_eq, agreed_eq_error_iff]
  constructor
  · rintro ⟨same, rest, hsplit, hsame, hne⟩
    obtain ⟨front, a, tail, rfl, hfront, ha, htail⟩ := List.filterMap_eq_cons_iff.mp hsplit
    obtain ⟨upper, lower, rfl, hupper, hlower⟩ := List.filterMap_eq_append_iff.mp htail
    obtain ⟨silent, b, back, rfl, hsilent, hb, -⟩ := List.filterMap_eq_cons_iff.mp hlower
    rw [← List.append_assoc upper silent]
    refine .mk ?_ (commits_iff.mpr ha) ?_ (commits_iff.mpr hb) hne
    · intro o ho hash hcommits
      rw [commits_iff, hfront o ho] at hcommits
      cases hcommits
    · intro o ho hash hcommits
      rcases List.mem_append.mp ho with ho | ho
      · refine hsame hash ?_
        rw [← hupper]
        exact mem_commitments.mpr ⟨o, ho, hcommits⟩
      · rw [commits_iff, hsilent o ho] at hcommits
        cases hcommits
  · intro h
    cases h with
    | @mk front middle back a b hfront ha hmiddle hb hne =>
      refine ⟨commitments tag middle, commitments tag back, ?_, ?_, hne⟩
      · rw [commitments_append, commitments_eq_nil_iff.mpr hfront, List.nil_append,
          commitments_cons_of_commits ha, commitments_append, commitments_cons_of_commits hb]
      · intro hash hhash
        obtain ⟨o, ho, hcommits⟩ := mem_commitments.mp hhash
        exact hmiddle o ho hash hcommits

theorem toOption_findCommitment_congr (h : ∀ o, o ∈ others ↔ o ∈ outputs) :
    (findCommitment tag others).toOption = (findCommitment tag outputs).toOption := by
  ext result
  have hok : ∀ found : Except Conflict (Option Digest),
      found.toOption = some result ↔ found = .ok result := by
    intro found
    cases found <;> simp [Except.toOption]
  rw [hok, hok]
  cases result with
  | none => simp only [findCommitment_eq_none_iff, h]
  | some hash => simp only [findCommitment_eq_some_iff, h]

end Outputs

section Built

variable {commitment : Option Digest} {bundles : List Bundle}

@[simp] theorem proposal?_commitmentScript (commitmentTag proposalTag : Tag) (hash : Digest) :
    proposal? proposalTag (commitmentScript commitmentTag hash) = none := by
  rw [Option.eq_none_iff_forall_ne_some]
  intro bundle h
  have hnone := commitment?_eq_none_of_proposal? h commitmentTag
  rw [commitment?_commitmentScript] at hnone
  cases hnone

theorem commitments_dataOutputs (commitmentTag proposalTag : Tag) (commitment : Option Digest)
    (bundles : List Bundle) :
    commitments commitmentTag (dataOutputs commitmentTag proposalTag commitment bundles) =
      commitment.toList := by
  cases commitment <;>
    simp [commitments, dataOutputs, List.filterMap_map, Function.comp_def]

theorem proposals_dataOutputs (commitmentTag proposalTag : Tag) (commitment : Option Digest)
    (bundles : List Bundle) :
    proposals proposalTag (dataOutputs commitmentTag proposalTag commitment bundles) = bundles := by
  cases commitment <;>
    simp [proposals, dataOutputs, List.filterMap_map, Function.comp_def]

/-- What was built for a coinbase is read back among any other outputs, whatever the tags are. The
proposals are those of the outputs before, the given ones and those of the outputs after. No output
commits, or all that commit have one hash, which is then found, or the first commitment is reported
with the first that differs from it. Order and repetition of the outputs change neither whether they
are accepted nor what is found. -/
theorem read_among_others (commitmentTag proposalTag : Tag) (commitment : Option Digest)
    (bundles : List Bundle) (before after : List Output) :
    let outputs := before ++ dataOutputs commitmentTag proposalTag commitment bundles ++ after
    proposals proposalTag outputs =
        proposals proposalTag before ++ bundles ++ proposals proposalTag after ∧
      commitments commitmentTag outputs =
        commitments commitmentTag before ++ commitment.toList ++
          commitments commitmentTag after ∧
      (findCommitment commitmentTag outputs = .ok none ↔
        ∀ o ∈ outputs, ∀ hash, ¬ Commits commitmentTag hash o) ∧
      (∀ hash, findCommitment commitmentTag outputs = .ok (some hash) ↔
        (∃ o ∈ outputs, Commits commitmentTag hash o) ∧
          ∀ o ∈ outputs, ∀ other, Commits commitmentTag other o → other = hash) ∧
      (∀ first second, findCommitment commitmentTag outputs = .error ⟨first, second⟩ ↔
        Conflicting commitmentTag first second outputs) ∧
      ∀ others : List Output, (∀ o, o ∈ others ↔ o ∈ outputs) →
        (findCommitment commitmentTag others).toOption =
          (findCommitment commitmentTag outputs).toOption := by
  intro outputs
  refine ⟨?_, ?_, findCommitment_eq_none_iff, fun _ => findCommitment_eq_some_iff,
    fun _ _ => findCommitment_eq_error_iff, fun _ => toOption_findCommitment_congr⟩
  · rw [proposals, List.filterMap_append, List.filterMap_append]
    exact congrArg (_ ++ · ++ _) (proposals_dataOutputs ..)
  · rw [commitments_append, commitments_append, commitments_dataOutputs]

/-- A commitment and a proposal under one tag, built behind an output that commits to the same hash,
and the same outputs backwards with one of them twice. -/
theorem read_backwards :
    let tag : Tag := Tag.mk 0x53 0x43 0x44 0x42
    let hash : Digest := Block.zero 32
    let bundle : Bundle := ⟨3, Block.zero 32⟩
    let before : List Output := [⟨7, commitmentScript tag hash⟩]
    let outputs := before ++ dataOutputs tag tag (some hash) [bundle] ++ []
    let others := outputs.reverse ++ before
    (∀ o, o ∈ others ↔ o ∈ outputs) ∧
      (findCommitment tag others).toOption = (findCommitment tag outputs).toOption ∧
      proposals tag outputs = [bundle] := by
  intro tag hash bundle before outputs others
  have hsame : ∀ o, o ∈ others ↔ o ∈ outputs := by
    intro o
    rw [List.mem_append, List.mem_reverse, or_iff_left_iff_imp]
    exact fun ho => List.mem_append_left _ (List.mem_append_left _ ho)
  obtain ⟨hproposals, -, -, -, -, hcongr⟩ :=
    read_among_others tag tag (some hash) [bundle] before []
  refine ⟨hsame, hcongr others hsame, hproposals.trans ?_⟩
  decide +kernel

end Built

end Coinbase

end BundleTracker
