import BundleTracker.Bytes.Hex
import BundleTracker.Text.Datum
import BundleTracker.Text.Double

/-!
# JSON tokens

Brackets, separators and scalars. A text is split into tokens by taking one
after the other off its front; blanks between them are skipped. Strings hold no
control characters, numbers have no needless zeros in front and at least one
digit on each side of a point.
-/

namespace BundleTracker
namespace Json

inductive Token
  | openList
  | closeList
  | openRecord
  | closeRecord
  | comma
  | colon
  | scalar (value : Datum)

/-! ## Strings -/

/-- An element of a string: a character, or one half of a surrogate pair. -/
inductive Piece
  | char (c : Char)
  | half (unit : Nat)
  deriving DecidableEq

/-- The element with this 16-bit code. -/
def Piece.ofUnit (unit : Nat) : Piece :=
  if 0xd800 ≤ unit ∧ unit < 0xe000 then .half unit else .char (Char.ofNat unit)

def unit? (a b c d : Char) : Option Nat := do
  return 4096 * (← Hex.digit? a) + 256 * (← Hex.digit? b) + 16 * (← Hex.digit? c) + (← Hex.digit? d)

/-- The character that a backslash and `c` stand for. -/
def shortEscape? : Char → Option Char
  | '"' => some '"'
  | '\\' => some '\\'
  | '/' => some '/'
  | 'b' => some '\x08'
  | 'f' => some '\x0c'
  | 'n' => some '\n'
  | 'r' => some '\r'
  | 't' => some '\t'
  | _ => none

/-- The elements of a string up to the closing quote, and what follows it. -/
def scanString : List Char → Option (List Piece × List Char)
  | [] => none
  | '"' :: rest => some ([], rest)
  | '\\' :: 'u' :: a :: b :: c :: d :: rest => do
    let unit ← unit? a b c d
    let (pieces, rest) ← scanString rest
    return (.ofUnit unit :: pieces, rest)
  | '\\' :: e :: rest => do
    let c ← shortEscape? e
    let (pieces, rest) ← scanString rest
    return (.char c :: pieces, rest)
  | c :: rest =>
    if c < ' ' ∨ c = '\\' then none
    else do
      let (pieces, rest) ← scanString rest
      return (.char c :: pieces, rest)

/-- The characters of a string, if every half of a surrogate pair has its other half. -/
def joinPieces : List Piece → Option (List Char)
  | [] => some []
  | .char c :: rest => (joinPieces rest).map (c :: ·)
  | .half high :: .half low :: rest =>
    if high < 0xdc00 ∧ 0xdc00 ≤ low then
      (joinPieces rest).map
        (Char.ofNat (0x10000 + 0x400 * (high - 0xd800) + (low - 0xdc00)) :: ·)
    else none
  | .half _ :: _ => none

/-- The text of a string. -/
def textOf (pieces : List Piece) : Datum :=
  match joinPieces pieces with
  | some cs => .text (String.ofList cs)
  | none => .garbled

/-! ## Numbers -/

def isDigit (c : Char) : Bool := '0' ≤ c && c ≤ '9'

/-- Whether `c` may occur in a number. -/
def isNumeric (c : Char) : Bool :=
  isDigit c || c == '-' || c == '+' || c == '.' || c == 'e' || c == 'E'

def decimalValue (digits : List Char) : Nat :=
  digits.foldl (fun n c => 10 * n + (c.toNat - 48)) 0

/-- Takes up digits behind `lead` while 64 bits hold the number; returns it with the digits left. -/
def takeUp (lead : Nat) : List Char → Nat × List Char
  | [] => (lead, [])
  | c :: rest =>
    let longer := decimalValue [c] + 10 * lead
    if longer < 0x10000000000000000 then takeUp longer rest else (lead, c :: rest)

/-- Whether a number is out of range: the leading digits that 64 bits hold and the power of ten
that makes up for the others, each rounded to a double, have a product past all doubles. -/
def isExcessive (lead : Nat) (exponent : Int) : Bool :=
  lead != 0 && 0 ≤ exponent &&
    (308 < exponent ||
      Double.limit ≤ Double.round lead * Double.round (Nat.pow 10 exponent.toNat))

/-- A number that is not an integer, by its digits before and after the point and its power. -/
def realOf (whole places : List Char) (power : Int) : Datum :=
  let (lead, uncounted) := takeUp 0 whole
  let (lead, dropped) := takeUp lead places
  if isExcessive lead (power + uncounted.length + dropped.length - places.length) then .excessive
  else .real

/-- An integer of at most 64 bits; zero with a sign is not one. -/
def integerOf (negative : Bool) (digits : List Char) : Datum :=
  let n := decimalValue digits
  if negative then
    if n ≠ 0 ∧ n ≤ 0x8000000000000000 then .integer (-n) else realOf digits [] 0
  else if n < 0x10000000000000000 then .integer n else realOf digits [] 0

/-- An exponent: a sign, which may be absent, and digits. -/
def exponent? (cs : List Char) : Option Int :=
  let (negative, digits) :=
    match cs with
    | '-' :: digits => (true, digits)
    | '+' :: digits => (false, digits)
    | digits => (false, digits)
  if digits ≠ [] ∧ digits.all isDigit then
    let n : Nat := decimalValue digits
    some (if negative then -n else n)
  else none

/-- The rest of a number after its integer digits `whole`. -/
def numberTail? (negative : Bool) (whole : List Char) : List Char → Option Datum
  | [] => some (integerOf negative whole)
  | '.' :: rest =>
    let places := rest.takeWhile isDigit
    if places = [] then none
    else
      match rest.dropWhile isDigit with
      | [] => some (realOf whole places 0)
      | e :: power =>
        if e = 'e' ∨ e = 'E' then (exponent? power).map (realOf whole places) else none
  | e :: power =>
    if e = 'e' ∨ e = 'E' then (exponent? power).map (realOf whole []) else none

/-- The number that a run of characters writes. -/
def number? (cs : List Char) : Option Datum :=
  let (negative, body) :=
    match cs with
    | '-' :: body => (true, body)
    | body => (false, body)
  let whole := body.takeWhile isDigit
  if whole = [] ∨ (whole.head? = some '0' ∧ whole.length ≠ 1) then none
  else numberTail? negative whole (body.dropWhile isDigit)

/-! ## Splitting -/

def isBlank (c : Char) : Bool := c == ' ' || c == '\n' || c == '\r' || c == '\t'

/-- The token at the front of a text that does not begin with a blank. -/
def Token.next? : List Char → Option (Token × List Char)
  | '[' :: rest => some (.openList, rest)
  | ']' :: rest => some (.closeList, rest)
  | '{' :: rest => some (.openRecord, rest)
  | '}' :: rest => some (.closeRecord, rest)
  | ',' :: rest => some (.comma, rest)
  | ':' :: rest => some (.colon, rest)
  | '"' :: rest => (scanString rest).map fun p => (.scalar (textOf p.1), p.2)
  | 'n' :: 'u' :: 'l' :: 'l' :: rest => some (.scalar .null, rest)
  | 't' :: 'r' :: 'u' :: 'e' :: rest => some (.scalar (.boolean true), rest)
  | 'f' :: 'a' :: 'l' :: 's' :: 'e' :: rest => some (.scalar (.boolean false), rest)
  | c :: rest =>
    if isDigit c || c == '-' then
      (number? (c :: rest.takeWhile isNumeric)).map fun d =>
        (.scalar d, rest.dropWhile isNumeric)
    else none
  | [] => none

theorem length_lt_of_scanString {cs : List Char} {p : List Piece × List Char}
    (h : scanString cs = some p) : p.2.length < cs.length := by
  fun_induction scanString cs generalizing p with
  | case1 => simp at h
  | case2 rest => obtain rfl := Option.some.inj h; simp
  | case3 a b c d rest ih =>
    simp only [Option.bind_eq_bind, Option.bind_eq_some_iff] at h
    obtain ⟨u, -, q, hq, h⟩ := h
    obtain rfl := Option.some.inj h
    have := ih hq
    simp only [List.length_cons]; omega
  | case4 e rest _ ih =>
    simp only [Option.bind_eq_bind, Option.bind_eq_some_iff] at h
    obtain ⟨u, -, q, hq, h⟩ := h
    obtain rfl := Option.some.inj h
    have := ih hq
    simp only [List.length_cons]; omega
  | case5 => simp at h
  | case6 c rest _ _ _ _ ih =>
    simp only [Option.bind_eq_bind, Option.bind_eq_some_iff] at h
    obtain ⟨q, hq, h⟩ := h
    obtain rfl := Option.some.inj h
    have := ih hq
    simp only [List.length_cons]; omega

theorem Token.length_lt_of_next? {cs : List Char} {p : Token × List Char}
    (h : Token.next? cs = some p) : p.2.length < cs.length := by
  unfold Token.next? at h
  split at h
  case h_7 rest =>
    obtain ⟨q, hq, rfl⟩ := Option.map_eq_some_iff.1 h
    have := length_lt_of_scanString hq
    simp only [List.length_cons]; omega
  case h_11 c rest _ _ _ _ _ _ _ _ _ _ =>
    split at h
    · obtain ⟨q, -, rfl⟩ := Option.map_eq_some_iff.1 h
      have : (rest.dropWhile isNumeric).length ≤ rest.length :=
        (List.dropWhile_sublist isNumeric).length_le
      simp only [List.length_cons]; omega
    · simp at h
  all_goals first | (simp at h; done) | (obtain rfl := Option.some.inj h; simp; done) | skip
  all_goals
    obtain rfl := Option.some.inj h
    simp only [List.length_cons]; omega

/-- The tokens of a text. -/
def tokens (text : List Char) : Option (List Token) :=
  let cs := text.dropWhile isBlank
  if cs = [] then some []
  else
    match h : Token.next? cs with
    | none => none
    | some (token, rest) =>
      have : rest.length < text.length :=
        Nat.lt_of_lt_of_le (Token.length_lt_of_next? h) (List.dropWhile_sublist _).length_le
      (tokens rest).map (token :: ·)
  termination_by text.length

end Json
end BundleTracker
