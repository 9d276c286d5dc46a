import BundleTracker.Text.Json.Token

/-!
# Writing JSON

The compact form is the text of a value's tokens, one after the other. The
indented form puts every item and every field on a line of its own, two spaces
deeper than the brackets around it. Of the characters of a string only quotes,
backslashes and control characters are escaped, the latter by a letter where
there is one.
-/

namespace BundleTracker
namespace Json

/-- A control character without a letter of its own, by its code in four digits. -/
def unitEscape (c : Char) : List Char :=
  ['\\', 'u', '0', '0', Nat.digitChar (c.toNat / 16), Nat.digitChar (c.toNat % 16)]

def escape (c : Char) : List Char :=
  if c = '"' then ['\\', '"']
  else if c = '\\' then ['\\', '\\']
  else if c = '\n' then ['\\', 'n']
  else if c = '\r' then ['\\', 'r']
  else if c = '\t' then ['\\', 't']
  else if c = '\x08' then ['\\', 'b']
  else if c = '\x0c' then ['\\', 'f']
  else if c < ' ' then unitEscape c
  else [c]

def quoted (s : String) : List Char := '"' :: (s.toList.flatMap escape ++ ['"'])

def integerText (n : Int) : List Char :=
  if n < 0 then '-' :: Nat.toDigits 10 n.natAbs else Nat.toDigits 10 n.natAbs

/-- The text of a scalar. Those without a value are written as `null`. -/
def scalarText : Datum → List Char
  | .boolean true => "true".toList
  | .boolean false => "false".toList
  | .integer n => integerText n
  | .text s => quoted s
  | _ => "null".toList

def Token.text : Token → List Char
  | .openList => ['[']
  | .closeList => [']']
  | .openRecord => ['{']
  | .closeRecord => ['}']
  | .comma => [',']
  | .colon => [':']
  | .scalar d => scalarText d

mutual

/-- The tokens of a value. -/
def tokensOf : Datum → List Token
  | .list [] => [.openList, .closeList]
  | .list (item :: items) => .openList :: (tokensOf item ++ tokensOfItems items)
  | .record [] => [.openRecord, .closeRecord]
  | .record ((name, d) :: fields) =>
    .openRecord :: .scalar (.text name) :: .colon :: (tokensOf d ++ tokensOfFields fields)
  | .null => [.scalar .null]
  | .boolean b => [.scalar (.boolean b)]
  | .integer n => [.scalar (.integer n)]
  | .real => [.scalar .real]
  | .moment => [.scalar .moment]
  | .excessive => [.scalar .excessive]
  | .garbled => [.scalar .garbled]
  | .text s => [.scalar (.text s)]

/-- The tokens after an item of a list. -/
def tokensOfItems : List Datum → List Token
  | [] => [.closeList]
  | item :: items => .comma :: (tokensOf item ++ tokensOfItems items)

/-- The tokens after a field of a record. -/
def tokensOfFields : List (String × Datum) → List Token
  | [] => [.closeRecord]
  | (name, d) :: fields =>
    .comma :: .scalar (.text name) :: .colon :: (tokensOf d ++ tokensOfFields fields)

end

/-- The compact text of a value. -/
def compact (d : Datum) : String := String.ofList ((tokensOf d).flatMap Token.text)

/-- A line break and two spaces for each level. -/
def newLine (depth : Nat) : List Char := '\n' :: List.replicate (2 * depth) ' '

mutual

/-- The indented text of a value whose brackets stand at `depth`. -/
def indentedAt (depth : Nat) : Datum → List Char
  | .list [] => ['[', ']']
  | .list (item :: items) =>
    '[' :: (newLine (depth + 1) ++ indentedAt (depth + 1) item ++ indentedItems depth items)
  | .record [] => ['{', '}']
  | .record ((name, d) :: fields) =>
    '{' :: (newLine (depth + 1) ++ quoted name ++ [':', ' '] ++ indentedAt (depth + 1) d ++
      indentedFields depth fields)
  | .null => scalarText .null
  | .boolean b => scalarText (.boolean b)
  | .integer n => scalarText (.integer n)
  | .real => scalarText .real
  | .moment => scalarText .moment
  | .excessive => scalarText .excessive
  | .garbled => scalarText .garbled
  | .text s => scalarText (.text s)

def indentedItems (depth : Nat) : List Datum → List Char
  | [] => newLine depth ++ [']']
  | item :: items =>
    ',' :: (newLine (depth + 1) ++ indentedAt (depth + 1) item ++ indentedItems depth items)

def indentedFields (depth : Nat) : List (String × Datum) → List Char
  | [] => newLine depth ++ ['}']
  | (name, d) :: fields =>
    ',' :: (newLine (depth + 1) ++ quoted name ++ [':', ' '] ++ indentedAt (depth + 1) d ++
      indentedFields depth fields)

end

/-- The indented text of a value. -/
def indented (d : Datum) : String := String.ofList (indentedAt 0 d)

end Json
end BundleTracker
