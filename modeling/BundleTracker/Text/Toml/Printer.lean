import BundleTracker.Text.Json.Printer
import BundleTracker.Text.Toml.Scalar

/-!
# Writing TOML

Each scalar field of a document takes a line; a list of records is written as
one table for each record, each under its own header and after an empty line.
A text takes the first of four forms that saves all escapes: double quotes,
single quotes, and each of them three times. Integers of more than 64 bits with
sign cannot be written.
-/

namespace BundleTracker
namespace Toml

/-- A control character by its code in four digits. -/
def codeEscape (c : Char) : List Char :=
  ['\\', 'u', '0', '0', Nat.digitChar (c.toNat / 16), (Nat.digitChar (c.toNat % 16)).toUpper]

def escape (c : Char) : List Char :=
  if c = '\x08' then ['\\', 'b']
  else if c = '\t' then ['\\', 't']
  else if c = '\n' then ['\\', 'n']
  else if c = '\x0c' then ['\\', 'f']
  else if c = '\r' then ['\\', 'r']
  else if c = '"' then ['\\', '"']
  else if c = '\\' then ['\\', '\\']
  else if isPlain c then [c]
  else codeEscape c

/-- The forms of a text, on one line or on several. The first and the third have escapes. -/
inductive TextForm
  | basic
  | literal
  | longBasic
  | longLiteral
  deriving DecidableEq

/-- The length of the longest run of `c`, of which `run` stand in front. -/
def longestRun (c : Char) (run : Nat) : List Char → Nat
  | [] => run
  | d :: rest => if d = c then longestRun c (run + 1) rest else max run (longestRun c 0 rest)

/-- Whether a text has this form without escapes. A tab may be escaped all the same. -/
def TextForm.suits (cs : List Char) : TextForm → Bool
  | .basic => cs.all fun c => isPlain c && c != '\\' && c != '"'
  | .literal => cs.all fun c => isPlain c && c != '\''
  | .longBasic =>
    cs.all (fun c => c == '\n' || (isPlain c && c != '\\')) && longestRun '"' 0 cs ≤ 2
  | .longLiteral => cs.all (fun c => c == '\n' || isPlain c) && longestRun '\'' 0 cs ≤ 2

/-- The first form that needs no escapes; else a form with escapes, on several lines only if the
text has line breaks. -/
def TextForm.of (cs : List Char) : TextForm :=
  let forms : List TextForm := [.basic, .literal, .longBasic, .longLiteral]
  (forms.find? (suits cs)).getD (if '\n' ∈ cs then .longBasic else .basic)

/-- A text on several lines with escapes, after `quotes` double quotes. Every third quote in a row
is escaped, and line breaks stand as they are. -/
def escapeLong (quotes : Nat) : List Char → List Char
  | [] => []
  | c :: rest =>
    if c = '"' then
      if quotes < 2 then '"' :: escapeLong (quotes + 1) rest
      else escape '"' ++ escapeLong 0 rest
    else if c = '\n' then '\n' :: escapeLong 0 rest
    else escape c ++ escapeLong 0 rest

/-- The line break after the opening quotes of a text that has line breaks itself. -/
def openingBreak (cs : List Char) : List Char := if '\n' ∈ cs then ['\n'] else []

def TextForm.write (cs : List Char) : TextForm → List Char
  | .basic => ['"'] ++ cs.flatMap escape ++ ['"']
  | .literal => ['\''] ++ cs ++ ['\'']
  | .longBasic => ['"', '"', '"'] ++ openingBreak cs ++ escapeLong 0 cs ++ ['"', '"', '"']
  | .longLiteral => ['\'', '\'', '\''] ++ openingBreak cs ++ cs ++ ['\'', '\'', '\'']

def quoted (s : String) : List Char := (TextForm.of s.toList).write s.toList

/-- The text of a scalar or of an empty list. -/
def scalarText? : Datum → Option (List Char)
  | .text s => some (quoted s)
  | .integer n =>
    if -0x8000000000000000 ≤ n ∧ n < 0x8000000000000000 then some (Json.integerText n) else none
  | .boolean true => some "true".toList
  | .boolean false => some "false".toList
  | .list [] => some "[]".toList
  | _ => none

def assignmentText? (name : String) (d : Datum) : Option (List Char) :=
  (scalarText? d).map fun value => name.toList ++ " = ".toList ++ value ++ ['\n']

/-- The lines of a table's fields. -/
def linesText? : List (String × Datum) → Option (List Char)
  | [] => some []
  | (name, d) :: rest => do
    return (← assignmentText? name d) ++ (← linesText? rest)

/-- The tables of a list of records. -/
def tablesText? (name : String) : List Datum → Option (List Char)
  | [] => some []
  | .record fields :: rest => do
    return '\n' :: ("[[".toList ++ name.toList ++ "]]\n".toList ++ (← linesText? fields) ++
      (← tablesText? name rest))
  | _ => none

/-- The fields of a document, which come to lists of records only after all others. -/
def fieldsText? : List (String × Datum) → Option (List Char)
  | [] => some []
  | (name, .list (item :: items)) :: rest => do
    return (← tablesText? name (item :: items)) ++ (← fieldsText? rest)
  | (name, d) :: rest => do
    return (← assignmentText? name d) ++ (← fieldsText? rest)

/-- The TOML text of a document. -/
def write? : Datum → Option String
  | .record fields => (fieldsText? fields).map String.ofList
  | _ => none

end Toml
end BundleTracker
