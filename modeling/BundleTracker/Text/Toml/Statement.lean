import BundleTracker.Text.Toml.Scalar

/-!
# TOML statements

A document is a list of statements, each on lines of its own: an assignment to
a key, the header of a table, or the header of an element of a list of tables.
Keys are paths of names. Lists may go over several lines and hold comments;
tables within a line may not. Lists and tables nest less than 80 deep, and a
path has less than 80 names.
-/

namespace BundleTracker
namespace Toml

inductive Statement
  | assign (path : List String) (value : Datum)
  | table (path : List String)
  | tables (path : List String)

/-- The bound on the depth of lists and tables and on the length of paths. -/
def maxDepth : Nat := 79

def skipSpaces (cs : List Char) : List Char := cs.dropWhile isSpace

/-- Skips spaces, line breaks and comments. Stops within a comment at a character that may not be
there. -/
def skipBlanks : Bool → List Char → List Char
  | _, [] => []
  | _, '\r' :: '\n' :: rest => skipBlanks false rest
  | _, '\n' :: rest => skipBlanks false rest
  | true, c :: rest => if isPlain c then skipBlanks true rest else c :: rest
  | false, '#' :: rest => skipBlanks true rest
  | false, c :: rest => if isSpace c then skipBlanks false rest else c :: rest

/-- What follows the line, if only spaces and a comment are left on it. -/
def lineEnd? (cs : List Char) : Option (List Char) :=
  let afterComment :=
    match skipSpaces cs with
    | '#' :: rest => rest.dropWhile isPlain
    | rest => rest
  match afterComment with
  | [] => some []
  | '\n' :: rest => some rest
  | '\r' :: '\n' :: rest => some rest
  | _ => none

/-! ## Keys -/

/-- Whether `c` may occur in a name without quotes. -/
def isBare (c : Char) : Bool := c.isAlphanum || c == '_' || c == '-'

/-- The name at the front of a text. -/
def scanName : List Char → Option (String × List Char)
  | '"' :: rest => (scanBasic rest).map fun p => (String.ofList p.1, p.2)
  | '\'' :: rest => (scanLiteral rest).map fun p => (String.ofList p.1, p.2)
  | cs =>
    let name := cs.takeWhile isBare
    if name = [] then none else some (String.ofList name, cs.dropWhile isBare)

/-- A path of at most `limit` names, with the spaces around it. -/
def scanPath : Nat → List Char → Option (List String × List Char)
  | 0, _ => none
  | limit + 1, cs => do
    let (name, rest) ← scanName (skipSpaces cs)
    match skipSpaces rest with
    | '.' :: rest =>
      let (names, rest) ← scanPath limit rest
      return (name :: names, rest)
    | rest => return ([name], rest)

/-! ## Tables

The fields of a table in the order in which they come up. A field is a value,
a table, or a list of tables of which only the last one can still grow. A table
may come up in passing, by the path of a header or of a key, before it has a
header itself. -/

/-- How a table has come up. -/
inductive TableKind
  /-- By its own header. -/
  | header
  /-- As part of the path of a header. -/
  | headerPath
  /-- As part of the path of a key. -/
  | keyPath
  deriving DecidableEq

inductive Entry
  | value (d : Datum)
  | table (kind : TableKind) (fields : List (String × Entry))
  | tables (closed : List Datum) (last : List (String × Entry))

abbrev Fields := List (String × Entry)

mutual

def Entry.toDatum : Entry → Datum
  | .value d => d
  | .table _ fields => .record (toDatumFields fields)
  | .tables closed last => .list (closed ++ [.record (toDatumFields last)])

def toDatumFields : Fields → List (String × Datum)
  | [] => []
  | (name, entry) :: rest => (name, entry.toDatum) :: toDatumFields rest

end

namespace Fields

/-- Replaces the entry of a field that is there. -/
def set (name : String) (entry : Entry) (fields : Fields) : Fields :=
  fields.map fun f => if f.1 = name then (name, entry) else f

/-- Assigns a value to a path that starts in these fields. The tables on the way must not have a
header of their own, and the last one must have come up by the path of a key. -/
def assign (value : Datum) : List String → Fields → Option Fields
  | [], _ => none
  | [name], fields =>
    if (fields.lookup name).isSome then none else some (fields ++ [(name, .value value)])
  | name :: path, fields =>
    match fields.lookup name with
    | none => do
      let inner ← assign value path []
      return fields ++ [(name, .table .keyPath inner)]
    | some (.table kind inner) =>
      if kind = .header ∨ (path.length = 1 ∧ kind ≠ .keyPath) then none
      else do
        let inner ← assign value path inner
        return set name (.table kind inner) fields
    | some (.tables closed last) =>
      if path.length = 1 then none
      else do
        let last ← assign value path last
        return set name (.tables closed last) fields
    | some (.value _) => none

/-- Changes the fields at the path of a header. -/
def descend (change : Fields → Option Fields) : List String → Fields → Option Fields
  | [], fields => change fields
  | name :: path, fields =>
    match fields.lookup name with
    | none => do
      let inner ← descend change path []
      return fields ++ [(name, .table .headerPath inner)]
    | some (.table kind inner) => do
      let inner ← descend change path inner
      return set name (.table kind inner) fields
    | some (.tables closed last) => do
      let last ← descend change path last
      return set name (.tables closed last) fields
    | some (.value _) => none

/-- Makes all assignments of a table. -/
def assignAll (assignments : List (List String × Datum)) (fields : Fields) : Option Fields :=
  assignments.foldlM (fun fields a => fields.assign a.2 a.1) fields

/-- Opens a table under its own header. It may have come up in the path of another header. -/
def openTable (name : String) (assignments : List (List String × Datum)) (fields : Fields) :
    Option Fields :=
  match fields.lookup name with
  | none => do return fields ++ [(name, .table .header (← assignAll assignments []))]
  | some (.table .headerPath inner) => do
    let inner ← assignAll assignments inner
    return fields.filter (·.1 ≠ name) ++ [(name, .table .header inner)]
  | some _ => none

/-- Opens the next element of a list of tables. -/
def openElement (name : String) (assignments : List (List String × Datum)) (fields : Fields) :
    Option Fields := do
  let element ← assignAll assignments []
  match fields.lookup name with
  | none => return fields ++ [(name, .tables [] element)]
  | some (.tables closed last) =>
    return set name (.tables (closed ++ [.record (toDatumFields last)]) element) fields
  | some _ => none

end Fields

/-! ## Values -/

/-- The items of a list up to its end, of which at most `limit` are read. -/
def scanItems (scan : List Char → Option (Datum × List Char)) :
    Nat → List Char → Option (List Datum × List Char)
  | 0, _ => none
  | limit + 1, cs =>
    match skipBlanks false cs with
    | ']' :: rest => some ([], rest)
    | cs => do
      let (item, rest) ← scan cs
      match skipBlanks false rest with
      | ',' :: rest =>
        let (items, rest) ← scanItems scan limit rest
        return (item :: items, rest)
      | ']' :: rest => return ([item], rest)
      | _ => none

/-- One assignment. -/
def scanAssignment (scan : List Char → Option (Datum × List Char)) (cs : List Char) :
    Option ((List String × Datum) × List Char) := do
  let (path, rest) ← scanPath maxDepth cs
  match rest with
  | '=' :: rest =>
    let (value, rest) ← scan (skipSpaces rest)
    return ((path, value), rest)
  | _ => none

/-- The assignments of a table within a line, of which at most `limit` are read. -/
def scanInline (scan : List Char → Option (Datum × List Char)) :
    Nat → List Char → Option (List (List String × Datum) × List Char)
  | 0, _ => none
  | limit + 1, cs => do
    let (assignment, rest) ← scanAssignment scan cs
    match skipSpaces rest with
    | ',' :: rest =>
      let (assignments, rest) ← scanInline scan limit rest
      return (assignment :: assignments, rest)
    | '}' :: rest => return ([assignment], rest)
    | _ => none

/-- The value at the front of a text, with lists and tables at most `levels` deep. -/
def scanValue : Nat → List Char → Option (Datum × List Char)
  | 0, cs => scanScalar cs
  | levels + 1, cs =>
    match cs with
    | '[' :: rest =>
      (scanItems (scanValue levels) (rest.length + 1) rest).map fun p => (.list p.1, p.2)
    | '{' :: rest =>
      match skipSpaces rest with
      | '}' :: rest => some (.record [], rest)
      | rest => do
        let (assignments, rest) ← scanInline (scanValue levels) (rest.length + 1) rest
        let fields ← Fields.assignAll assignments []
        return (.record (toDatumFields fields), rest)
    | _ => scanScalar cs

/-! ## Statements -/

/-- The statement at the front of a text. -/
def scanStatement : List Char → Option (Statement × List Char)
  | '[' :: '[' :: rest => do
    let (path, rest) ← scanPath maxDepth rest
    match rest with
    | ']' :: ']' :: rest => return (.tables path, rest)
    | _ => none
  | '[' :: rest => do
    let (path, rest) ← scanPath maxDepth rest
    match rest with
    | ']' :: rest => return (.table path, rest)
    | _ => none
  | cs => do
    let (assignment, rest) ← scanAssignment (scanValue maxDepth) cs
    return (.assign assignment.1 assignment.2, rest)

/-- The statements of a text, of which at most `limit` are read. -/
def scanStatements : Nat → List Char → Option (List Statement)
  | 0, _ => none
  | limit + 1, cs =>
    match skipBlanks false cs with
    | [] => some []
    | cs => do
      let (statement, rest) ← scanStatement cs
      return statement :: (← scanStatements limit (← lineEnd? rest))

def statements (text : List Char) : Option (List Statement) :=
  scanStatements (text.length + 1) text

end Toml
end BundleTracker
