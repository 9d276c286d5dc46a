import Mathlib.Tactic
import BundleTracker.Proofs.Script.Deposit
import BundleTracker.Script.Coinbase

/-!
# The grammar of coinbase data

A script carries data if it is the return opcode and one push, in any form, and nothing else. The
payload of a commitment is one byte shorter than that of a proposal, so neither is read as the
other, even if the tags are equal, and no deposit begins with a return. A coinbase that was built
for a commitment carries exactly that one.
-/

namespace BundleTracker

namespace Coinbase

/-- The script is a return and one push of the payload. -/
def Carries (payload : List UInt8) (script : Script) : Prop :=
  ∃ push, Script.Pushes payload push ∧ script = opReturn :: push

variable {tag commitmentTag proposalTag : Tag} {payload rest : List UInt8} {script : Script}
  {hash : Digest} {bundle : Bundle}

section Payload

theorem carries_iff :
    Carries payload script ↔ Script.split script = some [.op opReturn, .push payload] := by
  rw [Script.split_eq_some_iff, Script.spells_op_iff]
  constructor
  · rintro ⟨push, hpush, rfl⟩
    refine ⟨by decide, push, Script.spells_push_iff.mpr ?_, rfl⟩
    exact ⟨push, [], hpush, rfl, (List.append_nil push).symm⟩
  · rintro ⟨-, others, hothers, rfl⟩
    obtain ⟨push, _, hpush, rfl, rfl⟩ := Script.spells_push_iff.mp hothers
    exact ⟨push, hpush, by rw [List.append_nil]⟩

theorem Carries.inj {other : List UInt8} (h : Carries payload script)
    (h' : Carries other script) : payload = other := by
  rw [carries_iff] at h h'
  simpa using h.symm.trans h'

theorem carries_dataScript (h : payload.length ≤ 75) : Carries payload (dataScript payload) :=
  ⟨Script.push payload, .direct h, rfl⟩

theorem payload?_eq_some_iff :
    payload? tag script = some rest ↔ Carries (tag.toList ++ rest) script := by
  rw [carries_iff]
  constructor
  · intro h
    unfold payload? at h
    split at h
    · rename_i code data hsplit
      rw [Option.ite_none_right_eq_some] at h
      obtain ⟨⟨rfl, hbegins⟩, hdrop⟩ := h
      rw [hsplit, Tag.begins_and_drop_iff.mp ⟨hbegins, Option.some.inj hdrop⟩]
    · cases h
  · intro hsplit
    obtain ⟨hbegins, hdrop⟩ := Tag.begins_and_drop_iff.mpr (rfl : tag.toList ++ rest = _)
    rw [payload?, hsplit]
    dsimp only
    rw [if_pos ⟨rfl, hbegins⟩, hdrop]

end Payload

section Reading

theorem commitment?_eq_some_iff :
    commitment? tag script = some hash ↔ Carries (tag.toList ++ hash.toList) script := by
  rw [commitment?, Option.bind_eq_bind, Option.bind_eq_some_iff]
  simp only [payload?_eq_some_iff, Block.ofList?_eq_some_iff, exists_eq_right]

theorem proposal?_eq_some_iff :
    proposal? tag script = some bundle ↔
      Carries (tag.toList ++ bundle.sidechain :: bundle.digest.toList) script := by
  rw [← payload?_eq_some_iff]
  constructor
  · intro h
    unfold proposal? at h
    split at h
    · rename_i sidechain bytes hpayload
      obtain ⟨digest, hdigest, rfl⟩ := Option.map_eq_some_iff.mp h
      rw [hpayload, Block.ofList?_eq_some_iff.mp hdigest]
    · cases h
  · intro h
    rw [proposal?, h]
    dsimp only
    rw [Block.ofList?_toList, Option.map_some]

@[simp] theorem commitment?_commitmentScript (tag : Tag) (hash : Digest) :
    commitment? tag (commitmentScript tag hash) = some hash :=
  commitment?_eq_some_iff.mpr (carries_dataScript (by simp))

@[simp] theorem proposal?_proposalScript (tag : Tag) (bundle : Bundle) :
    proposal? tag (proposalScript tag bundle) = some bundle :=
  proposal?_eq_some_iff.mpr (carries_dataScript (by simp))

/-- A proposal is too long to be read as a commitment, even under the same tag. -/
theorem commitment?_eq_none_of_proposal? (h : proposal? proposalTag script = some bundle)
    (commitmentTag : Tag) : commitment? commitmentTag script = none := by
  rw [Option.eq_none_iff_forall_ne_some]
  intro hash hhash
  have hsame := (commitment?_eq_some_iff.mp hhash).inj (proposal?_eq_some_iff.mp h)
  simpa using congrArg List.length hsame

@[simp] theorem commitment?_proposalScript (commitmentTag proposalTag : Tag) (bundle : Bundle) :
    commitment? commitmentTag (proposalScript proposalTag bundle) = none :=
  commitment?_eq_none_of_proposal? (proposal?_proposalScript proposalTag bundle) commitmentTag

/-- A deposit does not begin with a return. -/
theorem not_carries_of_written {flag : Tag} {deposit : Deposit}
    (h : Deposit.Written flag deposit script) : ¬ Carries payload script := by
  rintro ⟨push, -, heq⟩
  cases h with
  | directPush => exact absurd (List.cons.inj heq).1 (by decide)
  | unconditional => exact absurd (List.cons.inj heq).1 (by decide)

/-- Coinbase data is read exactly. A script is read as a commitment to a hash exactly if it carries
the tag and the hash, and as a proposal of a bundle exactly if it carries the tag, the sidechain and
the digest. Every other script is neither, and both builders write what is read back. Whatever the
tags are, no script is read as more than one of a deposit, a commitment and a proposal. -/
theorem read_as_one :
    (∀ tag script hash, commitment? tag script = some hash ↔
      Carries (tag.toList ++ hash.toList) script) ∧
    (∀ tag script bundle, proposal? tag script = some bundle ↔
      Carries (tag.toList ++ bundle.sidechain :: bundle.digest.toList) script) ∧
    (∀ tag hash, commitment? tag (commitmentScript tag hash) = some hash) ∧
    (∀ tag bundle, proposal? tag (proposalScript tag bundle) = some bundle) ∧
    ∀ flag commitmentTag proposalTag script,
      [(Deposit.ofScript? flag script).isSome, (commitment? commitmentTag script).isSome,
        (proposal? proposalTag script).isSome].count true ≤ 1 := by
  refine ⟨fun _ _ _ => commitment?_eq_some_iff, fun _ _ _ => proposal?_eq_some_iff,
    commitment?_commitmentScript, proposal?_proposalScript, ?_⟩
  intro flag commitmentTag proposalTag script
  cases hdeposit : Deposit.ofScript? flag script with
  | some deposit =>
    have hwritten := Deposit.ofScript?_eq_some_iff.mp hdeposit
    have hcommitment : commitment? commitmentTag script = none :=
      Option.eq_none_iff_forall_ne_some.mpr fun hash h =>
        not_carries_of_written hwritten (commitment?_eq_some_iff.mp h)
    have hproposal : proposal? proposalTag script = none :=
      Option.eq_none_iff_forall_ne_some.mpr fun bundle h =>
        not_carries_of_written hwritten (proposal?_eq_some_iff.mp h)
    rw [hcommitment, hproposal]
    simp
  | none =>
    cases hproposal : proposal? proposalTag script with
    | some bundle =>
      rw [commitment?_eq_none_of_proposal? hproposal]
      simp
    | none => cases commitment? commitmentTag script <;> simp

/-- A push that is cut off after the data makes the script no commitment. -/
example :
    let tag : Tag := Tag.mk 0x53 0x43 0x44 0x42
    let script := commitmentScript tag (Block.zero 32)
    commitment? tag (script ++ [0x02, 0x00]) = none ∧
      commitment? tag script = some (Block.zero 32) := by
  decide +kernel

theorem findCommitment_dataOutputs (commitment : Digest) (bundles : List Bundle) :
    findCommitment commitmentTag
        (dataOutputs commitmentTag proposalTag (some commitment) bundles) =
      .ok (some commitment) := by
  have hread : (dataOutputs commitmentTag proposalTag (some commitment) bundles).filterMap
      (fun output => commitment? commitmentTag output.script) = [commitment] := by
    simp [dataOutputs, List.filterMap_map, Function.comp_def]
  rw [findCommitment, hread]
  rfl

end Reading

end Coinbase

end BundleTracker
