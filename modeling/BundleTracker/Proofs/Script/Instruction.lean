import Mathlib.Tactic
import BundleTracker.Bytes.LittleEndian.Lemmas
import BundleTracker.Script.Instruction

/-!
# The grammar of instructions

An instruction has the bytes of a push or is one opcode. A push has its length in front, either as
the opcode itself or behind one of three opcodes, in one, two or four bytes. Splitting a script
succeeds exactly if the script is the bytes of some instructions one after the other, and gives
these instructions.
-/

namespace BundleTracker

namespace Script

def lengthWidths : List (UInt8 × Nat) := [(0x4c, 1), (0x4d, 2), (0x4e, 4)]

/-- The bytes that push some data: the shortest form is not required. -/
inductive Pushes (data : List UInt8) : Script → Prop
  | direct : data.length ≤ 75 → Pushes data (push data)
  | prefixed {code : UInt8} {width : Nat} : (code, width) ∈ lengthWidths →
      data.length < 256 ^ width →
      Pushes data (code :: (LittleEndian.bytes width data.length ++ data))

inductive Encodes : Instruction → Script → Prop
  | push {data : List UInt8} {script : Script} : Pushes data script → Encodes (.push data) script
  | op {code : UInt8} : 0x4e < code → Encodes (.op code) [code]

def Spells : List Instruction → Script → Prop
  | [], script => script = []
  | i :: rest, script => ∃ first others, Encodes i first ∧ Spells rest others ∧
      script = first ++ others

variable {code : UInt8} {bytes rest data : List UInt8} {i : Instruction} {width : Nat}
  {script : Script}

section Spelling

variable {others : List Instruction}

theorem spells_nil_iff : Spells [] script ↔ script = [] := Iff.rfl

theorem spells_op_iff :
    Spells (.op code :: others) script ↔
      0x4e < code ∧ ∃ rest, Spells others rest ∧ script = code :: rest := by
  constructor
  · rintro ⟨first, rest, hfirst, hrest, rfl⟩
    cases hfirst with
    | op hcode => exact ⟨hcode, rest, hrest, rfl⟩
  · rintro ⟨hcode, rest, hrest, rfl⟩
    exact ⟨[code], rest, .op hcode, hrest, rfl⟩

theorem spells_push_iff :
    Spells (.push data :: others) script ↔
      ∃ push rest, Pushes data push ∧ Spells others rest ∧ script = push ++ rest := by
  constructor
  · rintro ⟨first, rest, hfirst, hrest, rfl⟩
    cases hfirst with
    | push hpush => exact ⟨first, rest, hpush, hrest, rfl⟩
  · rintro ⟨push, rest, hpush, hrest, rfl⟩
    exact ⟨push, rest, .push hpush, hrest, rfl⟩

end Spelling

section Next

theorem push?_eq_some_iff {count : Nat} :
    push? count bytes = some (i, rest) ↔
      ∃ data, i = .push data ∧ data.length = count ∧ bytes = data ++ rest := by
  rw [push?, Option.map_eq_some_iff]
  constructor
  · rintro ⟨⟨data, others⟩, hcut, heq⟩
    obtain ⟨rfl, rfl⟩ := Prod.mk.inj heq
    obtain ⟨hbytes, hlength⟩ := cut?_eq_some_iff.mp hcut
    exact ⟨data, rfl, hlength, hbytes⟩
  · rintro ⟨data, rfl, hlength, hbytes⟩
    exact ⟨(data, rest), cut?_eq_some_iff.mpr ⟨hbytes, hlength⟩, rfl⟩

theorem prefixedPush?_eq_some_iff :
    prefixedPush? width bytes = some (i, rest) ↔
      ∃ data, i = .push data ∧ data.length < 256 ^ width ∧
        bytes = LittleEndian.bytes width data.length ++ data ++ rest := by
  rw [prefixedPush?, Option.bind_eq_some_iff]
  constructor
  · rintro ⟨⟨front, others⟩, hcut, hpush⟩
    obtain ⟨rfl, rfl⟩ := cut?_eq_some_iff.mp hcut
    obtain ⟨data, rfl, hlength, rfl⟩ := push?_eq_some_iff.mp hpush
    refine ⟨data, rfl, ?_, ?_⟩
    · rw [hlength]
      exact LittleEndian.value_lt front
    · rw [hlength, LittleEndian.bytes_value, List.append_assoc]
  · rintro ⟨data, rfl, hlength, rfl⟩
    have hvalue : LittleEndian.value (LittleEndian.bytes width data.length) = data.length := by
      rw [LittleEndian.value_bytes, Nat.mod_eq_of_lt hlength]
    refine ⟨(LittleEndian.bytes width data.length, data ++ rest), ?_, ?_⟩
    · exact cut?_eq_some_iff.mpr ⟨List.append_assoc .., LittleEndian.length_bytes ..⟩
    · exact push?_eq_some_iff.mpr ⟨data, rfl, hvalue.symm, rfl⟩

theorem next?_of_direct (h : code ≤ 0x4b) (bytes : List UInt8) :
    next? code bytes = push? code.toNat bytes := if_pos h

theorem next?_of_prefixed (h : (code, width) ∈ lengthWidths) (bytes : List UInt8) :
    next? code bytes = prefixedPush? width bytes := by
  simp only [lengthWidths, List.mem_cons, Prod.mk.injEq, List.not_mem_nil, or_false] at h
  obtain ⟨rfl, rfl⟩ | ⟨rfl, rfl⟩ | ⟨rfl, rfl⟩ := h <;> rfl

theorem next?_of_op (h : 0x4e < code) (bytes : List UInt8) :
    next? code bytes = some (.op code, bytes) := by
  have hne : ∀ c : UInt8, c ≤ 0x4e → code ≠ c := by
    rintro c hc rfl
    exact absurd h (UInt8.not_lt.mpr hc)
  have hdirect : ¬ code ≤ 0x4b := fun hle => hne code (UInt8.le_trans hle (by decide)) rfl
  rw [next?, if_neg hdirect, if_neg (hne 0x4c (by decide)), if_neg (hne 0x4d (by decide)),
    if_neg (hne 0x4e (by decide))]

theorem code_cases (code : UInt8) :
    code ≤ 0x4b ∨ (∃ width, (code, width) ∈ lengthWidths) ∨ 0x4e < code := by
  by_cases hdirect : code ≤ 0x4b
  · exact .inl hdirect
  · by_cases hop : 0x4e < code
    · exact .inr (.inr hop)
    · obtain rfl | rfl | rfl : code = 0x4c ∨ code = 0x4d ∨ code = 0x4e := by grind
      · exact .inr (.inl ⟨1, by decide⟩)
      · exact .inr (.inl ⟨2, by decide⟩)
      · exact .inr (.inl ⟨4, by decide⟩)

theorem next?_eq_some_iff :
    next? code bytes = some (i, rest) ↔
      ∃ first, Encodes i first ∧ code :: bytes = first ++ rest := by
  constructor
  · intro h
    rcases code_cases code with hdirect | ⟨width, hwidth⟩ | hop
    · rw [next?_of_direct hdirect] at h
      obtain ⟨data, rfl, hlength, rfl⟩ := push?_eq_some_iff.mp h
      have hle : data.length ≤ 75 := hlength ▸ UInt8.le_iff_toNat_le.mp hdirect
      refine ⟨push data, .push (.direct hle), ?_⟩
      rw [push, hlength, UInt8.ofNat_toNat, List.cons_append]
    · rw [next?_of_prefixed hwidth] at h
      obtain ⟨data, rfl, hlength, rfl⟩ := prefixedPush?_eq_some_iff.mp h
      exact ⟨_, .push (.prefixed hwidth hlength), rfl⟩
    · rw [next?_of_op hop] at h
      obtain ⟨rfl, rfl⟩ := Prod.mk.inj (Option.some.inj h)
      exact ⟨[code], .op hop, rfl⟩
  · rintro ⟨first, hencodes, heq⟩
    cases hencodes with
    | @push data _ hpushes =>
      cases hpushes with
      | direct hlength =>
        rw [push, List.cons_append] at heq
        obtain ⟨rfl, rfl⟩ := List.cons.inj heq
        have hcode : (UInt8.ofNat data.length).toNat = data.length :=
          UInt8.toNat_ofNat_of_lt' (Nat.lt_of_le_of_lt hlength (by decide))
        rw [next?_of_direct (by rw [UInt8.le_iff_toNat_le, hcode]; exact hlength), hcode]
        exact push?_eq_some_iff.mpr ⟨_, rfl, rfl, rfl⟩
      | prefixed hwidth hlength =>
        obtain ⟨rfl, rfl⟩ := List.cons.inj heq
        rw [next?_of_prefixed hwidth]
        exact prefixedPush?_eq_some_iff.mpr ⟨_, rfl, hlength, rfl⟩
    | op hop =>
      obtain ⟨rfl, rfl⟩ := List.cons.inj heq
      exact next?_of_op hop _

end Next

section Split

@[simp] theorem split_nil : split [] = some [] := by rw [split]

theorem split_cons (code : UInt8) (bytes : List UInt8) :
    split (code :: bytes) =
      (next? code bytes).bind fun p => (split p.2).map (p.1 :: ·) := by
  rw [split]
  split
  · rename_i hnone
    rw [hnone]
    rfl
  · rename_i hsome
    simp only [hsome, Option.bind_some]

theorem Encodes.ne_nil (h : Encodes i script) : script ≠ [] := by
  cases h with
  | push h => cases h <;> exact List.cons_ne_nil _ _
  | op _ => exact List.cons_ne_nil _ _

theorem split_append (h : Encodes i script) (rest : Script) :
    split (script ++ rest) = (split rest).map (i :: ·) := by
  cases script with
  | nil => exact absurd rfl h.ne_nil
  | cons code bytes =>
    have hnext : next? code (bytes ++ rest) = some (i, rest) :=
      next?_eq_some_iff.mpr ⟨code :: bytes, h, rfl⟩
    rw [List.cons_append, split_cons, hnext, Option.bind_some]

/-- A script that splits is the bytes of its instructions, and nothing else is. -/
theorem split_eq_some_iff {instructions : List Instruction} :
    split script = some instructions ↔ Spells instructions script := by
  induction instructions generalizing script with
  | nil =>
    constructor
    · intro h
      cases script with
      | nil => rfl
      | cons code bytes =>
        rw [split_cons, Option.bind_eq_some_iff] at h
        obtain ⟨p, -, hp⟩ := h
        obtain ⟨others, -, hcons⟩ := Option.map_eq_some_iff.mp hp
        exact absurd hcons (List.cons_ne_nil _ _)
    · rintro rfl
      exact split_nil
  | cons i others ih =>
    constructor
    · intro h
      cases script with
      | nil =>
        rw [split_nil] at h
        cases h
      | cons code bytes =>
        rw [split_cons, Option.bind_eq_some_iff] at h
        obtain ⟨⟨i', rest⟩, hnext, hp⟩ := h
        obtain ⟨others', hrest, hcons⟩ := Option.map_eq_some_iff.mp hp
        obtain ⟨rfl, rfl⟩ := List.cons.inj hcons
        obtain ⟨first, hfirst, heq⟩ := next?_eq_some_iff.mp hnext
        exact ⟨first, rest, hfirst, ih.mp hrest, heq⟩
    · rintro ⟨first, rest, hfirst, hrest, rfl⟩
      rw [split_append hfirst, ih.mpr hrest]
      rfl

end Split

end Script

end BundleTracker
