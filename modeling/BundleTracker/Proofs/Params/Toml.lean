import Mathlib.Tactic
import BundleTracker.Params.Toml
import BundleTracker.Proofs.Params.Table
import BundleTracker.Proofs.Text.Reading
import BundleTracker.Proofs.Text.Toml.Document

/-!
# Parameters in TOML, written and read

Valid parameters whose integers fit into 64 bits with sign are written, and reading the text gives
the same parameters, whatever characters the names of the sidechains have. Whatever text is read,
the parameters that it holds are valid.
-/

namespace BundleTracker

open Toml

namespace Sidechain

variable {ε : Type}

def row (s : Sidechain) : Row := [
  ("idx", .integer s.index.toNat), ("name", .text s.name),
  ("verification_period", .integer s.period.toNat), ("min_workscore", .integer s.threshold.toNat)]

theorem lines_row (s : Sidechain) : Lines s.row where
  bare := by
    simp only [row, List.forall_mem_cons, List.not_mem_nil, false_imp_iff, implies_true, and_true]
    decide
  inline := by
    have hindex := s.index.toNat_lt
    have hperiod := s.period.toNat_lt
    have hthreshold := s.threshold.toNat_lt
    simp only [row, List.forall_mem_cons, List.not_mem_nil, false_imp_iff, implies_true, and_true]
    exact ⟨.integer (fits_of_lt (by omega)), .text s.name, .integer (fits_of_lt (by omega)),
      .integer (fits_of_lt (by omega))⟩
  nodup := by
    show ["idx", "name", "verification_period", "min_workscore"].Nodup
    decide

theorem read_toDatum (spare : Bool) (s : Sidechain) :
    (read spare : Reader ε Sidechain) s.toDatum = .ok s := by
  rw [read, toDatum, Reader.record,
    Parts.get_of_mem (by simp) (by simp) (Reader.byte_toNat s.index),
    Parts.get_of_mem (by simp) (by simp) (show Reader.text (.text s.name) = .ok s.name from rfl),
    Parts.getD_of_mem (by simp) (by simp) (Reader.word_toNat s.period),
    Parts.getD_of_mem (by simp) (by simp) (Reader.word_toNat s.threshold)]
  rfl

end Sidechain

namespace SidechainTable

theorem read_toDatum (spare : Bool) (t : SidechainTable) : read spare t.toDatum = .ok t := by
  have hlist : Reader.list (Sidechain.read spare : Reader ParamsCause Sidechain)
      (.list (t.toList.map Sidechain.toDatum)) = .ok t.toList := by
    refine Reader.list_of_forall₂ ?_
    rw [List.forall₂_map_left_iff]
    exact List.forall₂_same.mpr fun s _ => s.read_toDatum spare
  rw [read, toDatum, hlist]
  show (ofList t.toList).mapError _ = .ok t
  rw [ofList_toList]
  rfl

end SidechainTable

namespace Params

variable {p : Params}

/-- The integers can be written in 64 bits with a sign. All others have fewer bits. -/
structure FitsSigned (p : Params) : Prop where
  maxCombination : p.maxCombination.toNat < 2 ^ 63
  maxPackagesPerHeight : p.maxPackagesPerHeight.toNat < 2 ^ 63
  maxBufferedHeights : p.maxBufferedHeights.toNat < 2 ^ 63

theorem read_toDatum (spare : Bool) (p : Params) : read spare p.toDatum = .ok p := by
  have htag (tag : Tag) : Tag.read (.text tag.text) = .ok tag := by
    rw [Tag.read, Tag.ofText_text]
    rfl
  rw [read, toDatum, Reader.record, Parts.get_of_mem (by simp) (by simp) (htag p.depositFlag),
    Parts.get_of_mem (by simp) (by simp) (htag p.commitmentTag),
    Parts.get_of_mem (by simp) (by simp) (htag p.proposalTag),
    Parts.get_of_mem (by simp) (by simp) (Reader.word_toNat p.initialScore),
    Parts.get_of_mem (by simp) (by simp) (Reader.longWord_toNat p.maxCombination),
    Parts.get_of_mem (by simp) (by simp) (Reader.longWord_toNat p.maxPackagesPerHeight),
    Parts.getD_of_mem (by simp) (by simp) (Reader.longWord_toNat p.maxBufferedHeights),
    Parts.get_of_mem (by simp) (by simp) (p.sidechains.read_toDatum spare)]
  rfl

def row (p : Params) : Row := [
  ("deposit_flag", .text p.depositFlag.text), ("commitment_tag", .text p.commitmentTag.text),
  ("bundle_commit_tag", .text p.proposalTag.text),
  ("initial_workscore", .integer p.initialScore.toNat),
  ("max_combination_size", .integer p.maxCombination.toNat),
  ("max_packages_per_height", .integer p.maxPackagesPerHeight.toNat),
  ("max_buffered_heights", .integer p.maxBufferedHeights.toNat)]

/-- The document of parameters. Without sidechains their list takes a line, too. -/
def sheet (p : Params) : Sheet :=
  if p.sidechains.toList = [] then ⟨p.row ++ [("sidechains", .list [])], []⟩
  else ⟨p.row, [("sidechains", p.sidechains.toList.map Sidechain.row)]⟩

theorem toDatum_eq_record_row (p : Params) : p.toDatum = .record p.sheet.row := by
  unfold sheet
  split_ifs with hnil
  · simp [toDatum, SidechainTable.toDatum, row, Sheet.row, Sheet.listRow, hnil]
  · simp [toDatum, SidechainTable.toDatum, row, Sheet.row, Sheet.listRow, Sidechain.toDatum,
      Sidechain.row]

theorem map_fst_row (p : Params) : p.row.map (·.1) ++ ["sidechains"] = fieldNames := rfl

theorem bare_fieldNames : ∀ name ∈ fieldNames, Bare name := by decide

theorem nodup_fieldNames : fieldNames.Nodup := by decide

theorem bare_of_mem_row {f : String × Datum} (h : f ∈ p.row) : Bare f.1 := by
  refine bare_fieldNames f.1 ?_
  rw [← p.map_fst_row]
  exact List.mem_append_left _ (List.mem_map_of_mem h)

theorem inline_of_mem_row (h : p.FitsSigned) : ∀ f ∈ p.row, Inline f.2 := by
  have hscore := p.initialScore.toNat_lt
  simp only [row, List.forall_mem_cons, List.not_mem_nil, false_imp_iff, implies_true, and_true]
  exact ⟨.text _, .text _, .text _, .integer (fits_of_lt (by omega)),
    .integer (fits_of_lt h.maxCombination), .integer (fits_of_lt h.maxPackagesPerHeight),
    .integer (fits_of_lt h.maxBufferedHeights)⟩

theorem writable_sheet (h : p.FitsSigned) : p.sheet.Writable := by
  have hinline := inline_of_mem_row h
  have hlast : Bare "sidechains" := by decide
  unfold sheet
  split_ifs with hnil
  · have hnames : ((p.row ++ [("sidechains", Datum.list [])]).map (·.1)).Nodup := by
      rw [List.map_append]
      exact nodup_fieldNames
    exact {
      lines := {
        bare := List.forall_mem_append.mpr ⟨fun f => bare_of_mem_row, by simpa using hlast⟩
        inline := List.forall_mem_append.mpr ⟨hinline, by simpa using Inline.nil⟩
        nodup := hnames }
      lists := nofun
      nodup := by simpa [Sheet.row, Sheet.listRow] using hnames }
  · have hnames : ((p.row.map (·.1)) ++ ["sidechains"]).Nodup := nodup_fieldNames
    refine {
      lines := ⟨fun f => bare_of_mem_row, hinline, (List.nodup_append.mp hnames).1⟩
      lists := ?_
      nodup := by simpa [Sheet.row, Sheet.listRow] using hnames }
    rw [List.forall_mem_singleton]
    refine ⟨hlast, by simpa using hnil, fun element helement => ?_⟩
    obtain ⟨s, -, rfl⟩ := List.mem_map.mp helement
    exact s.lines_row

theorem ofToml_eq_ok_iff {text : String} :
    ofToml text = .ok p ↔
      ∃ d, Toml.read? text = some d ∧ read true d = .ok p ∧ p.check = .ok () := by
  unfold ofToml
  split
  · rename_i hnone
    simp [hnone]
  · rename_i d hsome
    split
    · rename_i hfault
      simp [hsome, hfault]
    · rename_i q hread
      split
      · rename_i hcheck
        simp only [hsome, hread, Option.some.injEq, exists_eq_left', Except.ok.injEq, reduceCtorEq,
          false_iff, not_and]
        rintro rfl hok
        rw [hcheck] at hok
        cases hok
      · rename_i hcheck
        simp only [hsome, hread, Option.some.injEq, exists_eq_left', Except.ok.injEq]
        constructor
        · rintro rfl
          exact ⟨rfl, hcheck⟩
        · exact And.left

/-- Valid parameters whose integers fit into 64 bits with sign are written, whatever the names of
their sidechains, and their text is read as the same parameters. Parameters that any text is read as
are valid, and so is each of their sidechains, none of which shares its index with another. -/
theorem restored_from_toml :
    (∀ p : Params, p.check = .ok () → p.FitsSigned →
      ∃ text, p.toToml? = some text ∧ ofToml text = .ok p) ∧
    ∀ text p, ofToml text = .ok p → p.check = .ok () ∧
      (p.sidechains.toList.map (·.index)).Nodup ∧
      ∀ s ∈ p.sidechains.toList,
        1 ≤ s.threshold ∧ s.threshold ≤ s.period ∧ p.initialScore < s.threshold := by
  refine ⟨?_, ?_⟩
  · intro p hcheck hfits
    obtain ⟨text, hwrite, hread⟩ := (writable_sheet hfits).read?_write?
    rw [← toDatum_eq_record_row] at hwrite hread
    exact ⟨text, hwrite, ofToml_eq_ok_iff.mpr ⟨_, hread, read_toDatum true p, hcheck⟩⟩
  · intro text p hread
    obtain ⟨-, -, -, hcheck⟩ := ofToml_eq_ok_iff.mp hread
    have hregular := p.sidechains.regular_toList
    refine ⟨hcheck, hregular.nodup, fun s hs => ?_⟩
    obtain ⟨hpos, hle⟩ := hregular.valid s hs
    have hone : 1 ≤ s.threshold := by
      rw [UInt16.lt_iff_toNat_lt] at hpos
      exact UInt16.le_iff_toNat_le.mpr hpos
    exact ⟨hone, hle, (check_eq_ok_iff.mp hcheck).initialScore_lt s hs⟩

/-- Two sidechains whose names have quotes of both kinds three times, backslashes, line breaks and
control characters, and the greatest number that can be written. -/
theorem restored_from_toml_with_quotes :
    let quotes : Sidechain := ⟨255, "\"\"\"'''\\\r\n\x00\x7f\"\"", 1, 1⟩
    let lines : Sidechain := ⟨0, "'''\nC:\\", 300, 100⟩
    let table := (SidechainTable.empty.insert quotes (by decide)).insert lines (by decide)
    let p : Params := { maxCombination := 0x7fffffffffffffff, sidechains := table }
    p.check = .ok () ∧ p.FitsSigned ∧
      ∃ text, p.toToml? = some text ∧ ofToml text = .ok p ∧
        (p.sidechains.toList.map (·.index)).Nodup := by
  intro quotes lines table p
  have hcheck : p.check = .ok () := by decide +kernel
  have hfits : p.FitsSigned := ⟨by decide, by decide, by decide⟩
  obtain ⟨text, hwrite, hread⟩ := restored_from_toml.1 p hcheck hfits
  exact ⟨hcheck, hfits, text, hwrite, hread, (restored_from_toml.2 text p hread).2.1⟩

end Params

end BundleTracker
