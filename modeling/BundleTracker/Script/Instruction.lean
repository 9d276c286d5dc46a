import BundleTracker.Bytes.LittleEndian

/-!
# Script instructions

A script is a byte string that splits into instructions: pushes, which carry
data, and single opcodes. Codes up to `0x4b` push that many bytes; `0x4c`,
`0x4d` and `0x4e` are followed by a length of one, two or four bytes, least
significant first. A push past the end of the script makes it malformed.
-/

namespace BundleTracker

abbrev Script := List UInt8

inductive Instruction
  | push (data : List UInt8)
  | op (code : UInt8)
  deriving DecidableEq

namespace Script

/-- The first `count` bytes and the rest, if there are that many. -/
def cut? (count : Nat) (bytes : List UInt8) : Option (List UInt8 × List UInt8) :=
  if count ≤ bytes.length then some (bytes.take count, bytes.drop count) else none

theorem cut?_eq_some_iff {count : Nat} {bytes front rest : List UInt8} :
    cut? count bytes = some (front, rest) ↔ bytes = front ++ rest ∧ front.length = count := by
  unfold cut?
  split
  · rename_i h
    simp only [Option.some.injEq, Prod.mk.injEq]
    constructor
    · rintro ⟨rfl, rfl⟩
      exact ⟨(List.take_append_drop ..).symm, by simp [h]⟩
    · rintro ⟨rfl, rfl⟩
      simp
  · rename_i h
    simp only [reduceCtorEq, false_iff]
    rintro ⟨rfl, rfl⟩
    simp at h

/-- A push of the first `count` bytes. -/
def push? (count : Nat) (bytes : List UInt8) : Option (Instruction × List UInt8) :=
  (cut? count bytes).map fun p => (.push p.1, p.2)

/-- A push whose length is written in the first `width` bytes. -/
def prefixedPush? (width : Nat) (bytes : List UInt8) : Option (Instruction × List UInt8) :=
  (cut? width bytes).bind fun p => push? (LittleEndian.value p.1) p.2

/-- The instruction that begins with `code`, and the bytes after it. -/
def next? (code : UInt8) (bytes : List UInt8) : Option (Instruction × List UInt8) :=
  if code ≤ 0x4b then push? code.toNat bytes
  else if code = 0x4c then prefixedPush? 1 bytes
  else if code = 0x4d then prefixedPush? 2 bytes
  else if code = 0x4e then prefixedPush? 4 bytes
  else some (.op code, bytes)

theorem length_le_of_push? {count : Nat} {bytes : List UInt8} {p : Instruction × List UInt8}
    (h : push? count bytes = some p) : p.2.length ≤ bytes.length := by
  obtain ⟨q, hq, rfl⟩ := Option.map_eq_some_iff.1 h
  obtain ⟨rfl, -⟩ := cut?_eq_some_iff.1 hq
  simp

theorem length_le_of_prefixedPush? {width : Nat} {bytes : List UInt8}
    {p : Instruction × List UInt8} (h : prefixedPush? width bytes = some p) :
    p.2.length ≤ bytes.length := by
  obtain ⟨q, hq, hp⟩ := Option.bind_eq_some_iff.1 h
  obtain ⟨rfl, -⟩ := cut?_eq_some_iff.1 hq
  exact Nat.le_trans (length_le_of_push? hp) (by simp)

theorem length_le_of_next? {code : UInt8} {bytes : List UInt8} {p : Instruction × List UInt8}
    (h : next? code bytes = some p) : p.2.length ≤ bytes.length := by
  unfold next? at h
  repeat' split at h
  · exact length_le_of_push? h
  · exact length_le_of_prefixedPush? h
  · exact length_le_of_prefixedPush? h
  · exact length_le_of_prefixedPush? h
  · obtain rfl := Option.some.inj h
    exact Nat.le_refl _

/-- The push of at most 75 bytes, with its length as one byte in front. -/
def push (data : List UInt8) : Script := UInt8.ofNat data.length :: data

/-- The instructions of a script, or `none` if one is cut off. -/
def split : Script → Option (List Instruction)
  | [] => some []
  | code :: bytes =>
    match h : next? code bytes with
    | none => none
    | some (instruction, rest) =>
      have : rest.length ≤ bytes.length := length_le_of_next? h
      (split rest).map (instruction :: ·)
  termination_by script => script.length

end Script

end BundleTracker
