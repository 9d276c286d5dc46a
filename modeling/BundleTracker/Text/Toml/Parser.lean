import BundleTracker.Text.Toml.Statement

/-!
# Reading TOML

The statements of a document fall into sections: the assignments before the
first header, and each header with the assignments under it. The sections are
entered one after the other into the fields of the document.
-/

namespace BundleTracker
namespace Toml

/-- The assignments up to the next header, and the statements from there on. -/
def assignments : List Statement → List (List String × Datum) × List Statement
  | .assign path value :: rest =>
    let (more, rest) := assignments rest
    ((path, value) :: more, rest)
  | rest => ([], rest)

theorem length_assignments (statements : List Statement) :
    (assignments statements).2.length ≤ statements.length := by
  fun_induction assignments statements with
  | case1 path value rest more tail h ih =>
    rw [h] at ih
    exact Nat.le_succ_of_le ih
  | case2 => exact Nat.le_refl _

/-- Enters a section at the path of its header. -/
def enter (openAt : String → Fields → Option Fields) (path : List String) (fields : Fields) :
    Option Fields :=
  match path.getLast? with
  | some name => fields.descend (openAt name) path.dropLast
  | none => none

/-- Enters the sections of the document. -/
def sections (fields : Fields) : List Statement → Option Fields
  | [] => some fields
  | .assign _ _ :: _ => none
  | .table path :: rest =>
    have := length_assignments rest
    match enter (Fields.openTable · (assignments rest).1) path fields with
    | some fields => sections fields (assignments rest).2
    | none => none
  | .tables path :: rest =>
    have := length_assignments rest
    match enter (Fields.openElement · (assignments rest).1) path fields with
    | some fields => sections fields (assignments rest).2
    | none => none
  termination_by statements => statements.length
  decreasing_by all_goals simp only [List.length_cons]; omega

/-- The fields of a list of statements. -/
def fieldsOf (statements : List Statement) : Option Fields := do
  let fields ← Fields.assignAll (assignments statements).1 []
  sections fields (assignments statements).2

/-- Drops the mark that may stand before a text. -/
def dropByteOrderMark : List Char → List Char
  | '\ufeff' :: rest => rest
  | cs => cs

/-- The document that a TOML text writes. -/
def read? (text : String) : Option Datum := do
  let statements ← statements (dropByteOrderMark text.toList)
  let fields ← fieldsOf statements
  return .record (toDatumFields fields)

end Toml
end BundleTracker
