import BundleTracker.Text.Json.Token

/-!
# TOML scalars

Strings come in four forms: with escapes or without, on one line or on several.
A string on several lines loses the line break after its opening quotes, has
plain line feeds for all others, and may end in two quotes of its own. All
other scalars are runs of letters, digits and a few signs: booleans, integers of
64 bits, floats, and dates and times, whose values are not kept.
-/

namespace BundleTracker
namespace Toml

def isSpace (c : Char) : Bool := c == ' ' || c == '\t'

/-- Any character but the control characters; the tab is allowed. -/
def isPlain (c : Char) : Bool := c == '\t' || (' ' ≤ c && c != '\x7f')

/-! ## Strings -/

/-- The character that a backslash and `c` stand for. -/
def shortEscape? : Char → Option Char
  | 'b' => some '\x08'
  | 't' => some '\t'
  | 'n' => some '\n'
  | 'f' => some '\x0c'
  | 'r' => some '\r'
  | '"' => some '"'
  | '\\' => some '\\'
  | _ => none

/-- The character whose code is written in hexadecimal. -/
def codePoint? (digits : List Char) : Option Char := do
  let values ← digits.mapM Hex.digit?
  let code := values.foldl (16 * · + ·) 0
  if code.isValidChar then some (Char.ofNat code) else none

/-- Puts a character in front of a string that was read. -/
def prepend (c : Char) (read : Option (List Char × List Char)) :
    Option (List Char × List Char) :=
  read.map fun p => (c :: p.1, p.2)

/-- A string with escapes, up to the closing quote, and what follows it. -/
def scanBasic : List Char → Option (List Char × List Char)
  | [] => none
  | '"' :: rest => some ([], rest)
  | '\\' :: 'u' :: a :: b :: c :: d :: rest => do
    prepend (← codePoint? [a, b, c, d]) (scanBasic rest)
  | '\\' :: 'U' :: a :: b :: c :: d :: e :: f :: g :: h :: rest => do
    prepend (← codePoint? [a, b, c, d, e, f, g, h]) (scanBasic rest)
  | '\\' :: e :: rest => do prepend (← shortEscape? e) (scanBasic rest)
  | c :: rest => if isPlain c && c != '\\' then prepend c (scanBasic rest) else none

/-- A string without escapes, up to the closing quote, and what follows it. -/
def scanLiteral : List Char → Option (List Char × List Char)
  | [] => none
  | '\'' :: rest => some ([], rest)
  | c :: rest => if isPlain c then prepend c (scanLiteral rest) else none

/-- What is left out after a backslash at the end of a line. -/
inductive Skipping
  | nothing
  /-- Spaces up to the end of the line. -/
  | lineEnd
  /-- Spaces and line breaks. -/
  | blanks

/-- A string with escapes on several lines, up to the closing quotes, and what follows them. -/
def scanLongBasic : Skipping → List Char → Option (List Char × List Char)
  | _, [] => none
  | .lineEnd, '\r' :: '\n' :: rest => scanLongBasic .blanks rest
  | .lineEnd, '\n' :: rest => scanLongBasic .blanks rest
  | .lineEnd, c :: rest => if isSpace c then scanLongBasic .lineEnd rest else none
  | .blanks, '\r' :: '\n' :: rest => scanLongBasic .blanks rest
  | .blanks, '\n' :: rest => scanLongBasic .blanks rest
  | .blanks, ' ' :: rest => scanLongBasic .blanks rest
  | .blanks, '\t' :: rest => scanLongBasic .blanks rest
  | _, '"' :: '"' :: '"' :: '"' :: '"' :: rest => some (['"', '"'], rest)
  | _, '"' :: '"' :: '"' :: '"' :: rest => some (['"'], rest)
  | _, '"' :: '"' :: '"' :: rest => some ([], rest)
  | _, '\r' :: '\n' :: rest => prepend '\n' (scanLongBasic .nothing rest)
  | _, '\n' :: rest => prepend '\n' (scanLongBasic .nothing rest)
  | _, '\\' :: 'u' :: a :: b :: c :: d :: rest => do
    prepend (← codePoint? [a, b, c, d]) (scanLongBasic .nothing rest)
  | _, '\\' :: 'U' :: a :: b :: c :: d :: e :: f :: g :: h :: rest => do
    prepend (← codePoint? [a, b, c, d, e, f, g, h]) (scanLongBasic .nothing rest)
  | _, '\\' :: '\r' :: '\n' :: rest => scanLongBasic .blanks rest
  | _, '\\' :: '\n' :: rest => scanLongBasic .blanks rest
  | _, '\\' :: e :: rest =>
    if isSpace e then scanLongBasic .lineEnd rest
    else do prepend (← shortEscape? e) (scanLongBasic .nothing rest)
  | _, c :: rest =>
    if isPlain c && c != '\\' then prepend c (scanLongBasic .nothing rest) else none

/-- A string without escapes on several lines, up to the closing quotes, and what follows them. -/
def scanLongLiteral : List Char → Option (List Char × List Char)
  | [] => none
  | '\'' :: '\'' :: '\'' :: '\'' :: '\'' :: rest => some (['\'', '\''], rest)
  | '\'' :: '\'' :: '\'' :: '\'' :: rest => some (['\''], rest)
  | '\'' :: '\'' :: '\'' :: rest => some ([], rest)
  | '\r' :: '\n' :: rest => prepend '\n' (scanLongLiteral rest)
  | '\n' :: rest => prepend '\n' (scanLongLiteral rest)
  | c :: rest => if isPlain c then prepend c (scanLongLiteral rest) else none

/-- Drops the line break at the start, if there is one. -/
def dropLineBreak : List Char → List Char
  | '\r' :: '\n' :: rest => rest
  | '\n' :: rest => rest
  | cs => cs

/-- The string at the front of a text that begins with a quote. -/
def scanString : List Char → Option (List Char × List Char)
  | '"' :: '"' :: '"' :: rest => scanLongBasic .nothing (dropLineBreak rest)
  | '"' :: rest => scanBasic rest
  | '\'' :: '\'' :: '\'' :: rest => scanLongLiteral (dropLineBreak rest)
  | '\'' :: rest => scanLiteral rest
  | _ => none

/-! ## Numbers -/

def digit? (base : Nat) (c : Char) : Option Nat := (Hex.digit? c).filter (· < base)

/-- The number that the digits after `value` continue. A single underscore may stand between two
digits. -/
def digitsFrom (base value : Nat) : List Char → Option Nat
  | [] => some value
  | '_' :: c :: rest => do digitsFrom base (base * value + (← digit? base c)) rest
  | c :: rest => do digitsFrom base (base * value + (← digit? base c)) rest

/-- The number that these digits write; zeros may stand in front. -/
def digits? (base : Nat) : List Char → Option Nat
  | [] => none
  | c :: rest => do digitsFrom base (← digit? base c) rest

/-- Decimal digits without needless zeros in front. -/
def decimal? : List Char → Option Nat
  | ['0'] => some 0
  | '0' :: _ => none
  | cs => digits? 10 cs

/-- Splits off a sign; whether it is negative. -/
def signed : List Char → Bool × List Char
  | '-' :: rest => (true, rest)
  | '+' :: rest => (false, rest)
  | cs => (false, cs)

/-- An integer of 64 bits. -/
def inRange? (n : Int) : Option Datum :=
  if -0x8000000000000000 ≤ n ∧ n < 0x8000000000000000 then some (.integer n) else none

def integer? : List Char → Option Datum
  | '0' :: 'x' :: rest => (digits? 16 rest).bind fun n => inRange? n
  | '0' :: 'o' :: rest => (digits? 8 rest).bind fun n => inRange? n
  | '0' :: 'b' :: rest => (digits? 2 rest).bind fun n => inRange? n
  | cs =>
    let (negative, body) := signed cs
    (decimal? body).bind fun n => inRange? (if negative then -n else n)

def isExponentMark (c : Char) : Bool := c == 'e' || c == 'E'

/-- The exponent after the places of a float; absent it is zero. -/
def exponent? : List Char → Option Int
  | [] => some 0
  | _ :: cs =>
    let (negative, body) := signed cs
    (digits? 10 body).map fun n => if negative then -(n : Int) else n

/-- A float with a point, an exponent or both. One above all doubles is refused. -/
def float? (cs : List Char) : Option Datum := do
  let (negative, body) := signed cs
  if body = "inf".toList ∨ body = "nan".toList then return .real
  let whole := body.takeWhile fun c => c != '.' && !isExponentMark c
  let tail := body.dropWhile fun c => c != '.' && !isExponentMark c
  let _ ← decimal? whole
  let places ← match tail with
    | [] => none
    | '.' :: rest => do
      let places := rest.takeWhile (!isExponentMark ·)
      let _ ← digits? 10 places
      pure places
    | _ => pure []
  let exponent ← exponent? (tail.dropWhile (!isExponentMark ·))
  let places := places.filter (· != '_')
  let mantissa ← digits? 10 (whole.filter (· != '_') ++ places)
  if !negative && Double.exceeds mantissa (exponent - places.length) then none
  else return .real

/-! ## Dates and times -/

/-- The number that two digits write. -/
def twoDigits? (a b : Char) : Option Nat := do
  return 10 * (← digit? 10 a) + (← digit? 10 b)

def daysIn (year month : Nat) : Nat :=
  if month = 2 then
    if year % 4 = 0 ∧ (year % 100 ≠ 0 ∨ year % 400 = 0) then 29 else 28
  else if month = 4 ∨ month = 6 ∨ month = 9 ∨ month = 11 then 30
  else 31

/-- Whether a run of characters is a day of the calendar. -/
def isDate : List Char → Bool
  | [a, b, c, d, '-', e, f, '-', g, h] =>
    match twoDigits? e f, twoDigits? g h with
    | some month, some day =>
      [a, b, c, d].all Json.isDigit && 1 ≤ month && month ≤ 12 &&
        1 ≤ day && day ≤ daysIn (Json.decimalValue [a, b, c, d]) month
    | _, _ => false
  | _ => false

/-- Whether two digits are a number up to `greatest`. -/
def isPart (greatest : Nat) (a b : Char) : Bool := (twoDigits? a b).any (· ≤ greatest)

def isHourMinute : List Char → Bool
  | [a, b, ':', c, d] => isPart 23 a b && isPart 59 c d
  | _ => false

/-- What may follow the seconds of a time: a fraction. -/
def isFraction : List Char → Bool
  | [] => true
  | '.' :: places => places != [] && places.all Json.isDigit
  | _ => false

/-- Whether a run of characters is a time of the day; a minute may have 61 seconds. -/
def isTime : List Char → Bool
  | a :: b :: ':' :: c :: d :: ':' :: e :: f :: rest =>
    isHourMinute [a, b, ':', c, d] && isPart 60 e f && isFraction rest
  | _ => false

/-- The distance of a time from universal time. -/
def isOffset : List Char → Bool
  | ['Z'] => true
  | ['z'] => true
  | '+' :: cs => isHourMinute cs
  | '-' :: cs => isHourMinute cs
  | _ => false

/-- A time that may have an offset after it. -/
def isZonedTime (cs : List Char) : Bool :=
  let isMark := fun c => c == 'Z' || c == 'z' || c == '+' || c == '-'
  let offset := cs.dropWhile (!isMark ·)
  isTime (cs.takeWhile (!isMark ·)) && (offset == [] || isOffset offset)

def isMoment (cs : List Char) : Bool :=
  isDate cs || isTime cs ||
    match cs.drop 10 with
    | mark :: time => isDate (cs.take 10) && (mark == 'T' || mark == 't') && isZonedTime time
    | [] => false

/-! ## Scalars -/

/-- Whether `c` may occur in a scalar that is not a string. -/
def isScalarChar (c : Char) : Bool :=
  c.isAlphanum || c == '_' || c == '+' || c == '-' || c == '.' || c == ':'

/-- The scalar that a run of characters writes. -/
def plainScalar? (cs : List Char) : Option Datum :=
  if cs = "true".toList then some (.boolean true)
  else if cs = "false".toList then some (.boolean false)
  else if isMoment cs then some .moment
  else (float? cs).or (integer? cs)

/-- The scalar at the front of a text, and what follows it. A date and a time may be apart by a
space. -/
def scanScalar (cs : List Char) : Option (Datum × List Char) :=
  if cs.head? = some '"' ∨ cs.head? = some '\'' then
    (scanString cs).map fun p => (.text (String.ofList p.1), p.2)
  else
    let run := cs.takeWhile isScalarChar
    let rest := cs.dropWhile isScalarChar
    match rest with
    | ' ' :: more =>
      if isDate run && isZonedTime (more.takeWhile isScalarChar) then
        some (.moment, more.dropWhile isScalarChar)
      else (plainScalar? run).map (·, rest)
    | _ => (plainScalar? run).map (·, rest)

end Toml
end BundleTracker
