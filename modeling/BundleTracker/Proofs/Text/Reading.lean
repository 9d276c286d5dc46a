import Mathlib.Tactic
import BundleTracker.Text.Reading

/-!
# Reading what was written

Numbers are read back from the integers that they are written as, lists item by item, and a record
field by field, if no field is repeated.
-/

namespace BundleTracker

variable {ε α : Type}

namespace Parts

variable {parts : Parts} {name : String} {d : Datum} {read : Reader ε α} {a : α}

theorem filter_eq_singleton {fields : List (String × Datum)} (hnodup : (fields.map (·.1)).Nodup)
    (hmem : (name, d) ∈ fields) : fields.filter (·.1 == name) = [(name, d)] := by
  induction fields with
  | nil => cases hmem
  | cons f fields ih =>
    rw [List.map_cons, List.nodup_cons] at hnodup
    obtain ⟨hnew, hrest⟩ := hnodup
    rcases List.mem_cons.mp hmem with rfl | hmem
    · rw [List.filter_cons_of_pos (by simp), List.filter_eq_nil_iff.mpr]
      rintro f hf hname
      exact hnew (List.mem_map.mpr ⟨f, hf, beq_iff_eq.mp hname⟩)
    · have hne : f.1 ≠ name := by
        rintro rfl
        exact hnew (List.mem_map.mpr ⟨_, hmem, rfl⟩)
      rw [List.filter_cons_of_neg (by simpa using hne), ih hrest hmem]

theorem getOr_of_mem (hnodup : (parts.fields.map (·.1)).Nodup) (hmem : (name, d) ∈ parts.fields)
    (hread : read d = .ok a) (absent : Except (Fault ε) α) :
    parts.getOr name read absent = .found a := by
  rw [getOr, filter_eq_singleton hnodup hmem]
  dsimp only
  rw [hread]
  rfl

theorem get_of_mem (hnodup : (parts.fields.map (·.1)).Nodup) (hmem : (name, d) ∈ parts.fields)
    (hread : read d = .ok a) : parts.get name read = .found a :=
  getOr_of_mem hnodup hmem hread _

theorem getD_of_mem (hnodup : (parts.fields.map (·.1)).Nodup) (hmem : (name, d) ∈ parts.fields)
    (hread : read d = .ok a) (default : α) : parts.getD name read default = .found a :=
  getOr_of_mem hnodup hmem hread _

end Parts

namespace Reader

theorem integer_of_mem {least greatest n : Int} (hleast : least ≤ n) (hgreatest : n ≤ greatest) :
    (integer least greatest : Reader ε Int) (.integer n) = .ok n :=
  if_pos ⟨hleast, hgreatest⟩

theorem byte_toNat (n : UInt8) : (byte : Reader ε UInt8) (.integer n.toNat) = .ok n := by
  have hlt := n.toNat_lt
  rw [byte, integer_of_mem (by omega) (by omega)]
  show Except.ok (UInt8.ofNat n.toNat) = .ok n
  rw [UInt8.ofNat_toNat]

theorem word_toNat (n : UInt16) : (word : Reader ε UInt16) (.integer n.toNat) = .ok n := by
  have hlt := n.toNat_lt
  rw [word, integer_of_mem (by omega) (by omega)]
  show Except.ok (UInt16.ofNat n.toNat) = .ok n
  rw [UInt16.ofNat_toNat]

theorem longWord_toNat (n : UInt64) : (longWord : Reader ε UInt64) (.integer n.toNat) = .ok n := by
  have hlt := n.toNat_lt
  rw [longWord, integer_of_mem (by omega) (by omega)]
  show Except.ok (UInt64.ofNat n.toNat) = .ok n
  rw [UInt64.ofNat_toNat]

theorem score_toInt (n : Int32) : (score : Reader ε Int32) (.integer n.toInt) = .ok n := by
  have hle := n.le_toInt
  have hlt := n.toInt_lt
  rw [score, integer_of_mem (by omega) (by omega)]
  show Except.ok (Int32.ofInt n.toInt) = .ok n
  rw [Int32.ofInt_toInt]

theorem list_of_forall₂ {read : Reader ε α} {items : List Datum} {values : List α}
    (h : List.Forall₂ (fun d a => read d = .ok a) items values) :
    list read (.list items) = .ok values := by
  rw [list]
  induction h with
  | nil => rfl
  | cons hitem _ ih =>
    rw [List.mapM_cons, hitem, ih]
    rfl

end Reader

end BundleTracker
