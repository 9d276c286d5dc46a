import Mathlib.Tactic
import BundleTracker.Package.Document
import BundleTracker.Proofs.Bytes.Hex
import BundleTracker.Proofs.Text.Json.Document
import BundleTracker.Proofs.Text.Reading

/-!
# Packages as JSON

Bundles, updates and packages are restored from their JSON texts, so no two of them share a text.
The digits of a digest may have letters of either case in such a text; all spellings stand for the
same stored bytes.
-/

namespace BundleTracker

/-- Whether values are restored from their JSON texts. The texts of a value are those of the
documents that show it, among them the one that is written. -/
structure Json.Restores {ε α : Type} (read : Reader ε α) (write : α → Datum)
    (Shows : α → Datum → Prop) : Prop where
  shows_write : ∀ a, Shows a (write a)
  read_compact : ∀ a d, Shows a d → (Json.read? (Json.compact d)).map read = some (.ok a)
  eq_of_compact_eq : ∀ a b d e, Shows a d → Shows b e → Json.compact d = Json.compact e → a = b

variable {ε : Type} {d : Datum}

section Shown

def Digest.Shows (digest : Digest) (d : Datum) : Prop :=
  ∃ digits, digest.Spelled digits ∧ d = .text digits

def Bundle.Shows (b : Bundle) (d : Datum) : Prop :=
  ∃ digits, b.digest.Shows digits ∧
    d = .record [("sidechain", .integer b.sidechain.toNat), ("wt_prime", digits)]

def Update.Shows (u : Update) (d : Datum) : Prop :=
  ∃ digits, u.bundle.digest.Shows digits ∧
    d = .record [("sidechain", .integer u.bundle.sidechain.toNat), ("wt_prime", digits),
      ("workscore", .integer u.score.toInt)]

/-- Whether a document is the record of a package, with a record for each update. -/
def Package.Shows (p : Package) (d : Datum) : Prop :=
  ∃ items, List.Forall₂ Update.Shows p.updates items ∧
    d = .record [("height", .integer p.height.toNat), ("updates", .list items)]

end Shown

namespace Json

theorem toList_compact_text (s : String) : (compact (.text s)).toList = quoted s := by
  rw [compact, String.toList_ofList]
  simp only [tokensOf, List.flatMap_cons, List.flatMap_nil, List.append_nil, Token.text, scalarText]

theorem Restores.of {α : Type} {read : Reader ε α} {write : α → Datum} {Shows : α → Datum → Prop}
    (hshows : ∀ a, Shows a (write a)) (hwritable : ∀ a d, Shows a d → Writable d)
    (hread : ∀ a d, Shows a d → read d = .ok a) : Restores read write Shows := by
  have hback : ∀ a d, Shows a d → (read? (compact d)).map read = some (.ok a) := by
    intro a d h
    rw [read?_compact (hwritable a d h), Option.map_some, hread a d h]
  refine ⟨hshows, hback, ?_⟩
  intro a b d e ha hb htext
  have ha' := hback a d ha
  rw [htext, hback b e hb] at ha'
  exact (Except.ok.inj (Option.some.inj ha')).symm

end Json

namespace Digest

open Json

variable {digest : Digest}

theorem Shows.writable (h : digest.Shows d) : Writable d := by
  obtain ⟨digits, -, rfl⟩ := h
  exact .scalar (.text digits)

theorem Shows.read_eq (h : digest.Shows d) : (Digest.read : Reader ε Digest) d = .ok digest := by
  obtain ⟨digits, hdigits, rfl⟩ := h
  rw [Digest.read, Reader.ofText, ofText?_of_spelled hdigits]

theorem shows_toDatum (digest : Digest) : digest.Shows digest.toDatum :=
  ⟨_, digest.spelled_text, rfl⟩

end Digest

namespace Bundle

open Json

variable {b : Bundle}

theorem Shows.writable (h : b.Shows d) : Writable d := by
  obtain ⟨digits, hdigits, rfl⟩ := h
  have hsidechain := b.sidechain.toNat_lt
  refine .record ?_
  simp only [List.forall_mem_cons, List.not_mem_nil, false_imp_iff, implies_true, and_true]
  exact ⟨.scalar (.integer (fits_of_lt (by omega))), hdigits.writable⟩

theorem Shows.read_eq (h : b.Shows d) : (Bundle.read : Reader ε Bundle) d = .ok b := by
  obtain ⟨digits, hdigits, rfl⟩ := h
  rw [Bundle.read, Reader.record,
    Parts.get_of_mem (by simp) (by simp) (Reader.byte_toNat b.sidechain),
    Parts.get_of_mem (by simp) (by simp) hdigits.read_eq]
  rfl

theorem shows_toDatum (b : Bundle) : b.Shows b.toDatum := ⟨_, b.digest.shows_toDatum, rfl⟩

end Bundle

namespace Update

open Json

variable {u : Update}

theorem Shows.writable (h : u.Shows d) : Writable d := by
  obtain ⟨digits, hdigits, rfl⟩ := h
  have hsidechain := u.bundle.sidechain.toNat_lt
  have hle := u.score.le_toInt
  have hlt := u.score.toInt_lt
  refine .record ?_
  simp only [List.forall_mem_cons, List.not_mem_nil, false_imp_iff, implies_true, and_true]
  exact ⟨.scalar (.integer (fits_of_lt (by omega))), hdigits.writable,
    .scalar (.integer ⟨by omega, by omega⟩)⟩

theorem Shows.read_eq (h : u.Shows d) : (Update.read : Reader ε Update) d = .ok u := by
  obtain ⟨digits, hdigits, rfl⟩ := h
  rw [Update.read, Reader.record,
    Parts.get_of_mem (by simp) (by simp) (Reader.byte_toNat u.bundle.sidechain),
    Parts.get_of_mem (by simp) (by simp) hdigits.read_eq,
    Parts.get_of_mem (by simp) (by simp) (Reader.score_toInt u.score)]
  rfl

theorem shows_toDatum (u : Update) : u.Shows u.toDatum := ⟨_, u.bundle.digest.shows_toDatum, rfl⟩

end Update

namespace Package

open Json

variable {p : Package}

theorem Shows.writable (h : p.Shows d) : Writable d := by
  obtain ⟨items, hitems, rfl⟩ := h
  refine .record ?_
  simp only [List.forall_mem_cons, List.not_mem_nil, false_imp_iff, implies_true, and_true]
  refine ⟨.scalar (.integer (fits_of_lt p.height.toNat_lt)), .list fun item hitem => ?_⟩
  obtain ⟨i, hi, rfl⟩ := List.getElem_of_mem hitem
  exact (hitems.get (hitems.length_eq ▸ hi) hi).writable

theorem Shows.read_eq (h : p.Shows d) : (Package.read : Reader ε Package) d = .ok p := by
  obtain ⟨items, hitems, rfl⟩ := h
  have hupdates : Reader.list (Update.read : Reader ε Update) (.list items) = .ok p.updates :=
    Reader.list_of_forall₂ (hitems.imp fun u d hu => hu.read_eq).flip
  rw [Package.read, Reader.record,
    Parts.get_of_mem (by simp) (by simp) (Reader.longWord_toNat p.height),
    Parts.get_of_mem (by simp) (by simp) hupdates]
  rfl

theorem shows_toDatum (p : Package) : p.Shows p.toDatum := by
  refine ⟨_, ?_, rfl⟩
  rw [List.forall₂_map_right_iff]
  exact List.forall₂_same.mpr fun u _ => u.shows_toDatum

end Package

/-- Packages, updates, bundles and digests are restored from their compact JSON texts, in which the
letters of a digest may have either case; so no two values share a text. A digest is written in
quotes with 64 digits, of which letters have lower case, and its last stored byte comes first. -/
theorem restored_from_json {ε : Type} :
    Json.Restores (Package.read : Reader ε Package) Package.toDatum Package.Shows ∧
    Json.Restores (Update.read : Reader ε Update) Update.toDatum Update.Shows ∧
    Json.Restores (Bundle.read : Reader ε Bundle) Bundle.toDatum Bundle.Shows ∧
    Json.Restores (Digest.read : Reader ε Digest) Digest.toDatum Digest.Shows ∧
    ∀ digest : Digest,
      (Json.compact digest.toDatum).toList = '"' :: (digest.text.toList ++ ['"']) ∧
      digest.text.length = 64 ∧ (∀ c ∈ digest.text.toList, c ∈ Hex.lowerDigits) ∧
      ∀ i < 32, ∀ byte, digest.toList[31 - i]? = some byte →
        digest.text.toList[2 * i]? = some (Nat.digitChar (byte.toNat / 16)) ∧
          digest.text.toList[2 * i + 1]? = some (Nat.digitChar (byte.toNat % 16)) := by
  refine ⟨.of Package.shows_toDatum (fun _ _ h => h.writable) (fun _ _ h => h.read_eq),
    .of Update.shows_toDatum (fun _ _ h => h.writable) (fun _ _ h => h.read_eq),
    .of Bundle.shows_toDatum (fun _ _ h => h.writable) (fun _ _ h => h.read_eq),
    .of Digest.shows_toDatum (fun _ _ h => h.writable) (fun _ _ h => h.read_eq), ?_⟩
  intro digest
  have hdigits : ∀ c ∈ digest.text.toList, c ∈ Hex.lowerDigits := by
    intro c hc
    rw [Digest.toList_text] at hc
    exact Hex.mem_lowerDigits_of_mem_encode hc
  have hplain : ∀ n < 16, Json.escape (Nat.digitChar n) = [Nat.digitChar n] := by decide
  have hescape : digest.text.toList.flatMap Json.escape = digest.text.toList := by
    refine (List.flatMap_congr fun c hc => ?_).trans (List.flatMap_singleton' _)
    obtain ⟨n, hn, rfl⟩ := Hex.mem_lowerDigits_iff.mp (hdigits c hc)
    exact hplain n hn
  refine ⟨?_, digest.length_text, hdigits, fun i hi byte h => Digest.getElem?_text hi h⟩
  rw [Digest.toDatum, Json.toList_compact_text, Json.quoted, hescape]

/-- A package of the greatest height whose score is negative and whose digest is written in capital
letters, with the byte stored first at the end. -/
theorem restored_from_capitals :
    let digest : Digest := ⟨0xab :: (List.range 31).map UInt8.ofNat, rfl⟩
    let p : Package := ⟨0xffffffffffffffff, [⟨⟨7, digest⟩, -2147483648⟩]⟩
    let digits := "1E1D1C1B1A191817161514131211100F0E0D0C0B0A09080706050403020100AB"
    let update : Datum := .record [("sidechain", .integer 7), ("wt_prime", .text digits),
      ("workscore", .integer (-2147483648))]
    let d : Datum :=
      .record [("height", .integer 18446744073709551615), ("updates", .list [update])]
    p.Shows d ∧
      (Json.read? (Json.compact d)).map (Package.read : Reader Unit Package) = some (.ok p) ∧
      digest.toList[31 - 31]? = some 0xab ∧ digest.text.toList[2 * 31]? = some 'a' ∧
      digest.text.toList[2 * 31 + 1]? = some 'b' := by
  intro digest p digits update d
  have hdigits : digest.Spelled digits := by
    rw [Digest.Spelled]
    decide +kernel
  have hshows : p.Shows d := ⟨_, .cons ⟨_, ⟨digits, hdigits, rfl⟩, rfl⟩ .nil, rfl⟩
  have hfirst : digest.toList[31 - 31]? = some 0xab := rfl
  obtain ⟨hpackage, -, -, -, hdigest⟩ := @restored_from_json Unit
  obtain ⟨-, -, -, hplaces⟩ := hdigest digest
  exact ⟨hshows, hpackage.read_compact p d hshows, hfirst, hplaces 31 (by decide) 0xab hfirst⟩

end BundleTracker
