import Mathlib.Tactic
import BundleTracker.Proofs.Script.Number
import BundleTracker.Script.Deposit

/-!
# The grammar of deposits

A deposit is written in one of two layouts, and exactly the scripts that are written so are read.
The one push of 25 bytes can be written in one way only. In the six instructions every push may have
any form, and the number may be an opcode.
-/

namespace BundleTracker

namespace Deposit

/-- The scripts of a deposit under a flag. -/
inductive Written (flag : Tag) : Deposit → Script → Prop
  | directPush (sidechain : UInt8) (destination : KeyHash) :
      Written flag ⟨sidechain, destination, .directPush⟩
        (0x19 :: (flag.toList ++ sidechain :: destination.toList))
  | unconditional {sidechain : UInt8} {destination : KeyHash} {mark key number : Script} :
      Script.Pushes flag.toList mark → Script.Pushes destination.toList key →
      Script.WritesNumber sidechain number →
      Written flag ⟨sidechain, destination, .unconditional⟩
        (0x51 :: (mark ++ key ++ number ++ [0x75, 0x6d]))

variable {flag : Tag} {script : Script} {deposit : Deposit} {sidechain : UInt8}
  {destination : KeyHash} {i : Instruction}

section Reading

theorem readDirectPush?_eq_some_iff :
    readDirectPush? flag script = some deposit ↔
      ∃ sidechain destination, deposit = ⟨sidechain, destination, .directPush⟩ ∧
        script = 0x19 :: (flag.toList ++ sidechain :: destination.toList) := by
  constructor
  · intro h
    unfold readDirectPush? at h
    split at h
    · rename_i payload
      split at h
      · rename_i sidechain bytes hdrop
        rw [Option.ite_none_right_eq_some] at h
        obtain ⟨hbegins, hmap⟩ := h
        obtain ⟨destination, hdestination, rfl⟩ := Option.map_eq_some_iff.mp hmap
        obtain rfl := Block.ofList?_eq_some_iff.mp hdestination
        refine ⟨sidechain, destination, rfl, ?_⟩
        rw [Tag.begins_and_drop_iff.mp ⟨hbegins, hdrop⟩]
      · cases h
    · cases h
  · rintro ⟨sidechain, destination, rfl, rfl⟩
    obtain ⟨hbegins, hdrop⟩ := Tag.begins_and_drop_iff.mpr
      (rfl : flag.toList ++ sidechain :: destination.toList = _)
    simp only [readDirectPush?, hdrop, hbegins, if_true, Block.ofList?_toList, Option.map_some]

theorem sidechainOf?_eq_some_iff {number : Int} :
    sidechainOf? number = some sidechain ↔ number = sidechain.toNat := by
  rw [sidechainOf?, Option.ite_none_right_eq_some]
  constructor
  · rintro ⟨⟨hnonneg, hsmall⟩, hnumber⟩
    obtain rfl := Option.some.inj hnumber
    rw [UInt8.toNat_ofNat']
    omega
  · rintro rfl
    have hlt : sidechain.toNat < 256 := sidechain.toNat_lt
    exact ⟨by omega, by simp⟩

theorem readUnconditional?_eq_some_iff :
    readUnconditional? flag script = some deposit ↔
      ∃ sidechain destination i, deposit = ⟨sidechain, destination, .unconditional⟩ ∧
        Script.number? i = some (sidechain.toNat : Int) ∧
        Script.split script = some [.op 0x51, .push flag.toList, .push destination.toList, i,
          .op 0x75, .op 0x6d] := by
  constructor
  · intro h
    unfold readUnconditional? at h
    split at h
    · rename_i mark bytes i hsplit
      rw [Option.ite_none_right_eq_some] at h
      obtain ⟨rfl, h⟩ := h
      obtain ⟨sidechain, hsidechain, h⟩ := Option.bind_eq_some_iff.mp h
      obtain ⟨number, hnumber, hof⟩ := Option.bind_eq_some_iff.mp hsidechain
      obtain ⟨destination, hdestination, h⟩ := Option.bind_eq_some_iff.mp h
      obtain rfl := Option.some.inj h
      obtain rfl := Block.ofList?_eq_some_iff.mp hdestination
      obtain rfl := sidechainOf?_eq_some_iff.mp hof
      exact ⟨sidechain, destination, i, rfl, hnumber, hsplit⟩
    · cases h
  · rintro ⟨sidechain, destination, i, rfl, hnumber, hsplit⟩
    have hof : sidechainOf? (sidechain.toNat : Int) = some sidechain :=
      sidechainOf?_eq_some_iff.mpr rfl
    simp only [readUnconditional?, hsplit, if_true, hnumber, Option.bind_eq_bind, Option.bind_some,
      hof, Block.ofList?_toList]

/-- A number between two keys and two opcodes: what the six instructions of a deposit spell. -/
theorem spells_unconditional_iff :
    Script.Spells [.op 0x51, .push flag.toList, .push destination.toList, i, .op 0x75, .op 0x6d]
        script ↔
      ∃ mark key number, Script.Pushes flag.toList mark ∧ Script.Pushes destination.toList key ∧
        Script.Encodes i number ∧ script = 0x51 :: (mark ++ key ++ number ++ [0x75, 0x6d]) := by
  have hdrops : ∀ rest, Script.Spells [.op 0x75, .op 0x6d] rest ↔ rest = [0x75, 0x6d] := by
    simp [Script.spells_op_iff, Script.spells_nil_iff]
  constructor
  · intro h
    obtain ⟨-, _, hmarked, rfl⟩ := Script.spells_op_iff.mp h
    obtain ⟨mark, _, hmark, hkeyed, rfl⟩ := Script.spells_push_iff.mp hmarked
    obtain ⟨key, _, hkey, ⟨number, _, hnumber, hrest, rfl⟩, rfl⟩ :=
      Script.spells_push_iff.mp hkeyed
    obtain rfl := (hdrops _).mp hrest
    exact ⟨mark, key, number, hmark, hkey, hnumber, by simp⟩
  · rintro ⟨mark, key, number, hmark, hkey, hnumber, rfl⟩
    refine Script.spells_op_iff.mpr ⟨by decide, _, ?_, rfl⟩
    rw [List.append_assoc, List.append_assoc]
    refine Script.spells_push_iff.mpr ⟨mark, _, hmark, ?_, rfl⟩
    refine Script.spells_push_iff.mpr ⟨key, _, hkey, ?_, rfl⟩
    exact ⟨number, _, hnumber, (hdrops _).mpr rfl, rfl⟩

theorem ofScript?_eq_some_iff :
    ofScript? flag script = some deposit ↔ Written flag deposit script := by
  rw [ofScript?, Option.or_eq_some_iff]
  constructor
  · rintro (h | ⟨-, h⟩)
    · obtain ⟨sidechain, destination, rfl, rfl⟩ := readDirectPush?_eq_some_iff.mp h
      exact .directPush sidechain destination
    · obtain ⟨sidechain, destination, i, rfl, hnumber, hsplit⟩ :=
        readUnconditional?_eq_some_iff.mp h
      obtain ⟨mark, key, number, hmark, hkey, hencodes, rfl⟩ :=
        spells_unconditional_iff.mp (Script.split_eq_some_iff.mp hsplit)
      exact .unconditional hmark hkey (Script.writesNumber_iff.mpr ⟨i, hencodes, hnumber⟩)
  · intro h
    cases h with
    | directPush sidechain destination =>
      exact .inl (readDirectPush?_eq_some_iff.mpr ⟨sidechain, destination, rfl, rfl⟩)
    | @unconditional sidechain destination mark key number hmark hkey hnumber =>
      obtain ⟨i, hencodes, hnumber⟩ := Script.writesNumber_iff.mp hnumber
      refine .inr ⟨rfl, readUnconditional?_eq_some_iff.mpr ?_⟩
      refine ⟨sidechain, destination, i, rfl, hnumber, Script.split_eq_some_iff.mpr ?_⟩
      exact spells_unconditional_iff.mpr ⟨mark, key, number, hmark, hkey, hencodes, rfl⟩

theorem written_directPushScript (flag : Tag) (sidechain : UInt8) (destination : KeyHash) :
    Written flag ⟨sidechain, destination, .directPush⟩
      (directPushScript flag sidechain destination) := by
  have hlength : (flag.toList ++ sidechain :: destination.toList).length = 25 := by simp
  rw [directPushScript, Script.push, hlength]
  exact .directPush sidechain destination

theorem written_unconditionalScript (flag : Tag) (sidechain : UInt8) (destination : KeyHash) :
    Written flag ⟨sidechain, destination, .unconditional⟩
      (unconditionalScript flag sidechain destination) :=
  .unconditional (.direct (by simp)) (.direct (by simp)) (Script.writesNumber_pushNumber sidechain)

/-- Deposits are read by their grammar. A script is read as a deposit exactly if it is written as
that deposit in one of the two layouts, with any form of the pushes in the six instructions. Every
other script is none, no script is written as two deposits, and both builders write what is read
back. -/
theorem read_by_grammar (flag : Tag) :
    (∀ script deposit, ofScript? flag script = some deposit ↔ Written flag deposit script) ∧
    (∀ script, ofScript? flag script = none ↔ ∀ deposit, ¬ Written flag deposit script) ∧
    (∀ script deposit other, Written flag deposit script → Written flag other script →
      deposit = other) ∧
    ∀ sidechain destination,
      ofScript? flag (directPushScript flag sidechain destination) =
        some ⟨sidechain, destination, .directPush⟩ ∧
      ofScript? flag (unconditionalScript flag sidechain destination) =
        some ⟨sidechain, destination, .unconditional⟩ := by
  refine ⟨fun _ _ => ofScript?_eq_some_iff, ?_, ?_, ?_⟩
  · intro script
    simp only [Option.eq_none_iff_forall_ne_some, ne_eq, ofScript?_eq_some_iff]
  · intro script deposit other h h'
    rw [← ofScript?_eq_some_iff] at h h'
    exact Option.some.inj (h.symm.trans h')
  · intro sidechain destination
    exact ⟨ofScript?_eq_some_iff.mpr (written_directPushScript flag sidechain destination),
      ofScript?_eq_some_iff.mpr (written_unconditionalScript flag sidechain destination)⟩

/-- The flag with a length of two bytes, the key with one of four, and 200 with one of one byte. The
same script without its last byte is no deposit. -/
theorem read_long_pushes :
    let flag : Tag := Tag.mk 0x0e 0x0d 0x0d 0x0e
    let script : Script := 0x51 :: ([0x4d, 4, 0, 0x0e, 0x0d, 0x0d, 0x0e] ++
      (0x4e :: 20 :: 0 :: 0 :: 0 :: List.replicate 20 7) ++ [0x4c, 2, 200, 0] ++ [0x75, 0x6d])
    let deposit : Deposit := ⟨200, ⟨List.replicate 20 7, rfl⟩, .unconditional⟩
    Written flag deposit script ∧ ofScript? flag script = some deposit ∧
      (∀ other, Written flag other script → other = deposit) ∧
      ∀ other, ¬ Written flag other script.dropLast := by
  intro flag script deposit
  obtain ⟨hread, hnone, hunique, -⟩ := read_by_grammar flag
  obtain ⟨hone, htwo, hfour⟩ : (0x4c, 1) ∈ Script.lengthWidths ∧
      (0x4d, 2) ∈ Script.lengthWidths ∧ (0x4e, 4) ∈ Script.lengthWidths := by decide
  have hmark : Script.Pushes flag.toList (0x4d :: (LittleEndian.bytes 2 4 ++ flag.toList)) :=
    .prefixed htwo (show flag.toList.length < 256 ^ 2 by decide)
  have hkey : Script.Pushes deposit.destination.toList
      (0x4e :: (LittleEndian.bytes 4 20 ++ deposit.destination.toList)) :=
    .prefixed hfour (show deposit.destination.toList.length < 256 ^ 4 by decide)
  have hnumber : Script.WritesNumber 200 (0x4c :: (LittleEndian.bytes 1 2 ++ [200, 0])) :=
    .push (.prefixed hone (show (Script.numberBytes 200).length < 256 ^ 1 by decide))
  have hwritten : Written flag deposit script := .unconditional hmark hkey hnumber
  refine ⟨hwritten, (hread _ _).mpr hwritten, fun other h => hunique script _ _ h hwritten, ?_⟩
  exact (hnone _).mp (by decide +kernel)

end Reading

end Deposit

end BundleTracker
