import Mathlib.Tactic
import BundleTracker.Proofs.Text.Toml.Statements
import BundleTracker.Text.Toml.Parser

/-!
# Reading TOML documents

A document of values and of lists of tables is written, and its text is read as the same document.
The text yields one statement for every line that it has, and entering the statements one after the
other puts the fields together again.
-/

namespace BundleTracker

namespace Toml

open Text

abbrev Row := List (String × Datum)

variable {name : String} {d : Datum} {lines : Row} {elements : List Row}
  {lists : List (String × List Row)} {fields : Fields} {rest : List Statement}

/-- The fields of a table that take a line each: no name is used twice. -/
structure Lines (lines : Row) : Prop where
  bare : ∀ f ∈ lines, Bare f.1
  inline : ∀ f ∈ lines, Inline f.2
  nodup : (lines.map (·.1)).Nodup

structure Tables (name : String) (elements : List Row) : Prop where
  bare : Bare name
  ne_nil : elements ≠ []
  lines : ∀ element ∈ elements, Lines element

/-- A document of lines and of lists of tables, which come last. -/
structure Sheet where
  lines : Row
  lists : List (String × List Row)

namespace Sheet

def listRow (lists : List (String × List Row)) : Row :=
  lists.map fun l => (l.1, .list (l.2.map .record))

def row (s : Sheet) : Row := s.lines ++ listRow s.lists

structure Writable (s : Sheet) : Prop where
  lines : Lines s.lines
  lists : ∀ l ∈ s.lists, Tables l.1 l.2
  nodup : (s.row.map (·.1)).Nodup

end Sheet

section Texts

def lineStatements (lines : Row) : List Statement :=
  lines.map fun f => .assign [f.1] f.2

def tableStatements (name : String) (elements : List Row) : List Statement :=
  elements.flatMap fun lines => .tables [name] :: lineStatements lines

def listStatements (lists : List (String × List Row)) : List Statement :=
  lists.flatMap fun l => tableStatements l.1 l.2

theorem exists_linesText (hbare : ∀ f ∈ lines, Bare f.1) (hinline : ∀ f ∈ lines, Inline f.2) :
    ∃ text, linesText? lines = some text ∧ Yields text (lineStatements lines) := by
  induction lines with
  | nil => exact ⟨[], rfl, .nil⟩
  | cons f lines ih =>
    rw [List.forall_mem_cons] at hbare hinline
    obtain ⟨front, hfront, hreads⟩ := hinline.1.yields hbare.1
    obtain ⟨back, hback, hrest⟩ := ih hbare.2 hinline.2
    exact ⟨front ++ back, by rw [linesText?, hfront, hback]; rfl, hreads.append hrest⟩

theorem exists_tablesText (h : Bare name) (helements : ∀ element ∈ elements, Lines element) :
    ∃ text, tablesText? name (elements.map .record) = some text ∧
      Yields text (tableStatements name elements) := by
  induction elements with
  | nil => exact ⟨[], rfl, .nil⟩
  | cons lines elements ih =>
    rw [List.forall_mem_cons] at helements
    obtain ⟨front, hfront, hreads⟩ := exists_linesText helements.1.bare helements.1.inline
    obtain ⟨back, hback, hrest⟩ := ih helements.2
    refine ⟨_, by rw [List.map_cons, tablesText?, hfront, hback]; rfl, ?_⟩
    exact ((yields_header h).append hreads).append hrest

theorem fieldsText?_of_inline (hd : Inline d) (name : String) (rest : Row) :
    fieldsText? ((name, d) :: rest) = do
      return (← assignmentText? name d) ++ (← fieldsText? rest) := by
  cases hd <;> rfl

theorem exists_fieldsText_of_lists (hlists : ∀ l ∈ lists, Tables l.1 l.2) :
    ∃ text, fieldsText? (Sheet.listRow lists) = some text ∧
      Yields text (listStatements lists) := by
  induction lists with
  | nil => exact ⟨[], rfl, .nil⟩
  | cons l lists ih =>
    rw [List.forall_mem_cons] at hlists
    obtain ⟨front, hfront, hreads⟩ := exists_tablesText hlists.1.bare hlists.1.lines
    obtain ⟨back, hback, hrest⟩ := ih hlists.2
    refine ⟨front ++ back, ?_, hreads.append hrest⟩
    obtain ⟨first, others, hcons⟩ := List.exists_cons_of_ne_nil hlists.1.ne_nil
    rw [hcons, List.map_cons] at hfront
    rw [Sheet.listRow] at hback
    rw [Sheet.listRow, List.map_cons, hcons, List.map_cons, fieldsText?, hfront, hback]
    rfl

theorem exists_fieldsText (hbare : ∀ f ∈ lines, Bare f.1) (hinline : ∀ f ∈ lines, Inline f.2)
    (hlists : ∀ l ∈ lists, Tables l.1 l.2) :
    ∃ text, fieldsText? (lines ++ Sheet.listRow lists) = some text ∧
      Yields text (lineStatements lines ++ listStatements lists) := by
  induction lines with
  | nil => exact exists_fieldsText_of_lists hlists
  | cons f lines ih =>
    rw [List.forall_mem_cons] at hbare hinline
    obtain ⟨front, hfront, hreads⟩ := hinline.1.yields hbare.1
    obtain ⟨back, hback, hrest⟩ := ih hbare.2 hinline.2
    refine ⟨front ++ back, ?_, hreads.append hrest⟩
    rw [List.cons_append, fieldsText?_of_inline hinline.1, hfront, hback]
    rfl

end Texts

section Entering

def entries (lines : Row) : Fields := lines.map fun f => (f.1, .value f.2)

theorem toDatumFields_append (front back : Fields) :
    toDatumFields (front ++ back) = toDatumFields front ++ toDatumFields back := by
  induction front with
  | nil => rfl
  | cons f front ih => rw [List.cons_append, toDatumFields, toDatumFields, ih, List.cons_append]

theorem toDatumFields_entries (lines : Row) :
    toDatumFields (entries lines) = lines := by
  induction lines with
  | nil => rfl
  | cons f lines ih =>
    rw [entries] at ih
    rw [entries, List.map_cons, toDatumFields, ih, Entry.toDatum]

theorem lookup_eq_none_iff : fields.lookup name = none ↔ name ∉ fields.map (·.1) := by
  rw [List.lookup_eq_none_iff]
  simp only [List.mem_map, not_exists, not_and, bne_iff_ne, ne_comm]

theorem lookup_append_self (h : name ∉ fields.map (·.1)) (entry : Entry) :
    (fields ++ [(name, entry)]).lookup name = some entry := by
  rw [List.lookup_append, lookup_eq_none_iff.mpr h, List.lookup_cons_self]
  rfl

theorem set_append_self (h : name ∉ fields.map (·.1)) (old entry : Entry) :
    Fields.set name entry (fields ++ [(name, old)]) = fields ++ [(name, entry)] := by
  have hother : fields.map (fun f => if f.1 = name then (name, entry) else f) = fields := by
    refine (List.map_congr_left fun f hf => ?_).trans (List.map_id fields)
    rw [if_neg]
    · rfl
    · rintro rfl
      exact h (List.mem_map_of_mem hf)
  rw [Fields.set, List.map_append, hother, List.map_singleton, if_pos rfl]

theorem assign_new (h : name ∉ fields.map (·.1)) (d : Datum) :
    Fields.assign d [name] fields = some (fields ++ [(name, .value d)]) := by
  rw [Fields.assign, lookup_eq_none_iff.mpr h]
  rfl

theorem assignAll_lines (h : (fields.map (·.1) ++ lines.map (·.1)).Nodup) :
    Fields.assignAll (lines.map fun f => ([f.1], f.2)) fields = some (fields ++ entries lines) := by
  induction lines generalizing fields with
  | nil => exact congrArg some (List.append_nil fields).symm
  | cons f lines ih =>
    have hnew : f.1 ∉ fields.map (·.1) := by
      intro hmem
      exact List.disjoint_of_nodup_append h hmem List.mem_cons_self
    have hnext : ((fields ++ [(f.1, Entry.value f.2)]).map (·.1) ++ lines.map (·.1)).Nodup := by
      simpa using h
    have hrest := ih hnext
    rw [List.append_assoc] at hrest
    rw [Fields.assignAll] at hrest ⊢
    rw [List.map_cons, List.foldlM_cons, assign_new hnew]
    exact hrest

/-- The assignments of a section end with its lines if another header follows. -/
theorem assignments_append (hrest : assignments rest = ([], rest)) (lines : Row) :
    assignments (lineStatements lines ++ rest) = (lines.map fun f => ([f.1], f.2), rest) := by
  induction lines with
  | nil => exact hrest
  | cons f lines ih =>
    rw [lineStatements] at ih
    rw [lineStatements, List.map_cons, List.cons_append, assignments, ih]
    rfl

theorem assignAll_of_lines (h : Lines lines) :
    Fields.assignAll (lines.map fun f => ([f.1], f.2)) [] = some (entries lines) :=
  assignAll_lines h.nodup

theorem sections_first (h : name ∉ fields.map (·.1)) (hlines : Lines lines)
    (hrest : assignments rest = ([], rest)) :
    sections fields (.tables [name] :: (lineStatements lines ++ rest)) =
      sections (fields ++ [(name, .tables [] (entries lines))]) rest := by
  have henter : enter (Fields.openElement · (lines.map fun f => ([f.1], f.2))) [name] fields =
      some (fields ++ [(name, .tables [] (entries lines))]) := by
    show Fields.openElement name _ fields = _
    rw [Fields.openElement, assignAll_of_lines hlines]
    simp only [Option.bind_eq_bind, Option.bind_some, lookup_eq_none_iff.mpr h, Option.pure_def]
  rw [sections, assignments_append hrest, henter]

theorem sections_next (h : name ∉ fields.map (·.1)) (hlines : Lines lines)
    (hrest : assignments rest = ([], rest)) (closed : List Datum) (last : Row) :
    sections (fields ++ [(name, .tables closed (entries last))])
        (.tables [name] :: (lineStatements lines ++ rest)) =
      sections (fields ++ [(name, .tables (closed ++ [.record last]) (entries lines))]) rest := by
  have henter : enter (Fields.openElement · (lines.map fun f => ([f.1], f.2))) [name]
      (fields ++ [(name, .tables closed (entries last))]) =
        some (fields ++ [(name, .tables (closed ++ [.record last]) (entries lines))]) := by
    show Fields.openElement name _ _ = _
    rw [Fields.openElement, assignAll_of_lines hlines]
    simp only [Option.bind_eq_bind, Option.bind_some, lookup_append_self h, set_append_self h,
      toDatumFields_entries, Option.pure_def]
  rw [sections, assignments_append hrest, henter]

theorem assignments_tableStatements (hrest : assignments rest = ([], rest)) (name : String)
    (elements : List Row) : assignments (tableStatements name elements ++ rest) =
      ([], tableStatements name elements ++ rest) := by
  cases elements with
  | nil => exact hrest
  | cons lines elements => rfl

/-- The tables of a list are entered behind those that are there. The last one stays open, since
only the next one closes it. -/
theorem exists_sections_tables (h : name ∉ fields.map (·.1))
    (helements : ∀ element ∈ elements, Lines element) (hrest : assignments rest = ([], rest))
    (closed : List Datum) (last : Row) :
    ∃ entry : Entry, entry.toDatum = .list (closed ++ .record last :: elements.map .record) ∧
      sections (fields ++ [(name, .tables closed (entries last))])
          (tableStatements name elements ++ rest) =
        sections (fields ++ [(name, entry)]) rest := by
  induction elements generalizing closed last with
  | nil =>
    refine ⟨_, ?_, rfl⟩
    rw [Entry.toDatum, toDatumFields_entries]
    rfl
  | cons lines elements ih =>
    rw [List.forall_mem_cons] at helements
    obtain ⟨entry, hentry, hsections⟩ := ih helements.2 (closed ++ [.record last]) lines
    refine ⟨entry, by rw [hentry]; simp, ?_⟩
    have hmore := assignments_tableStatements hrest name elements
    rw [← hsections, ← sections_next h helements.1 hmore]
    simp [tableStatements]

theorem exists_sections_list (hlist : Tables name elements) (h : name ∉ fields.map (·.1))
    (hrest : assignments rest = ([], rest)) :
    ∃ entry : Entry, entry.toDatum = .list (elements.map .record) ∧
      sections fields (tableStatements name elements ++ rest) =
        sections (fields ++ [(name, entry)]) rest := by
  have helements := hlist.lines
  obtain ⟨lines, others, rfl⟩ := List.exists_cons_of_ne_nil hlist.ne_nil
  rw [List.forall_mem_cons] at helements
  obtain ⟨entry, hentry, hsections⟩ := exists_sections_tables h helements.2 hrest [] lines
  refine ⟨entry, hentry, ?_⟩
  have hmore := assignments_tableStatements hrest name others
  rw [← hsections, ← sections_first h helements.1 hmore]
  simp [tableStatements]

theorem assignments_listStatements (hne : ∀ l ∈ lists, l.2 ≠ []) :
    assignments (listStatements lists) = ([], listStatements lists) := by
  cases lists with
  | nil => rfl
  | cons l lists =>
    obtain ⟨first, others, hcons⟩ := List.exists_cons_of_ne_nil (hne l List.mem_cons_self)
    simp [listStatements, tableStatements, hcons, assignments]

theorem exists_sections_lists (hlists : ∀ l ∈ lists, Tables l.1 l.2)
    (hnodup : (fields.map (·.1) ++ lists.map (·.1)).Nodup) :
    ∃ entered, sections fields (listStatements lists) = some entered ∧
      toDatumFields entered = toDatumFields fields ++ Sheet.listRow lists := by
  induction lists generalizing fields with
  | nil =>
    refine ⟨fields, ?_, (List.append_nil _).symm⟩
    rw [listStatements, List.flatMap_nil, sections]
  | cons l lists ih =>
    rw [List.forall_mem_cons] at hlists
    obtain ⟨hlist, hlists⟩ := hlists
    have hnew : l.1 ∉ fields.map (·.1) := by
      intro hmem
      exact List.disjoint_of_nodup_append hnodup hmem List.mem_cons_self
    have hmore := assignments_listStatements fun l hl => (hlists l hl).ne_nil
    obtain ⟨entry, hentry, hsections⟩ := exists_sections_list hlist hnew hmore
    have hnames : ((fields ++ [(l.1, entry)]).map (·.1) ++ lists.map (·.1)).Nodup := by
      simpa using hnodup
    obtain ⟨entered, hentered, hdatum⟩ := ih hlists hnames
    refine ⟨entered, ?_, ?_⟩
    · rw [listStatements, List.flatMap_cons, ← listStatements, hsections, hentered]
    · rw [hdatum, toDatumFields_append, toDatumFields, toDatumFields, hentry, Sheet.listRow,
        Sheet.listRow, List.map_cons, List.append_assoc, List.singleton_append]

end Entering

/-- The text of a document is read as the document. -/
theorem Sheet.Writable.read?_write? {s : Sheet} (h : s.Writable) :
    ∃ text, write? (.record s.row) = some text ∧ read? text = some (.record s.row) := by
  obtain ⟨text, htext, hyields⟩ := exists_fieldsText h.lines.bare h.lines.inline h.lists
  have hnames : ((entries s.lines).map (·.1) ++ s.lists.map (·.1)).Nodup := by
    have hnodup := h.nodup
    simpa [Sheet.row, Sheet.listRow, entries, Function.comp_def] using hnodup
  obtain ⟨entered, hentered, hdatum⟩ := exists_sections_lists h.lists hnames
  have hmark : dropByteOrderMark text = text := by
    unfold dropByteOrderMark
    split
    · exact absurd rfl (hyields.unmarked.ne_cons rfl _)
    · rfl
  have hlists : assignments (listStatements s.lists) = ([], listStatements s.lists) :=
    assignments_listStatements fun l hl => (h.lists l hl).ne_nil
  have hfields : fieldsOf (lineStatements s.lines ++ listStatements s.lists) = some entered := by
    rw [fieldsOf, assignments_append hlists]
    dsimp only
    rw [assignAll_of_lines h.lines]
    exact hentered
  rw [toDatumFields_entries] at hdatum
  refine ⟨String.ofList text, by rw [write?, Sheet.row, htext, Option.map_some], ?_⟩
  rw [read?, String.toList_ofList, hmark, hyields.statements_eq]
  simp only [Option.bind_eq_bind, Option.bind_some, hfields, hdatum]
  rfl

end Toml

end BundleTracker
