import BundleTracker.Text.Datum

/-!
# Typed reading of documents

A reader turns a document into a value or names the fault that makes it
unreadable. A record is read field by field in the order of the document, so
of several faults the first one in the text counts; absent fields come last,
in the order in which the reader asks for them. Unknown fields are skipped, and
a known field may not be repeated. A record may also be written as the list of
its fields' values.
-/

namespace BundleTracker

/-- Why a document is not a value of the type asked for; `ε` are the causes that the type adds
to a wrong shape. -/
inductive Fault (ε : Type)
  | shape
  | missing (field : String)
  | refused (cause : ε)
  deriving DecidableEq

abbrev Reader (ε α : Type) := Datum → Except (Fault ε) α

/-- A value read from fields, or the first fault with its position in the document. -/
inductive Sought (ε α : Type)
  | found (value : α)
  | fault (position : Nat) (fault : Fault ε)

namespace Sought

variable {ε α β : Type}

/-- Of two faults the one with the smaller position counts, and the left one at equal positions. -/
def apply : Sought ε (α → β) → Sought ε α → Sought ε β
  | .found f, .found a => .found (f a)
  | .found _, .fault j e => .fault j e
  | .fault i e, .found _ => .fault i e
  | .fault i e, .fault j e' => if j < i then .fault j e' else .fault i e

instance : Applicative (Sought ε) where
  pure := .found
  seq f x := apply f (x ())

def toExcept : Sought ε α → Except (Fault ε) α
  | .found a => .ok a
  | .fault _ e => .error e

end Sought

/-- The fields of one record. In a record written as a list, an absent field is not named. -/
structure Parts where
  fields : List (String × Datum)
  ordered : Bool

namespace Parts

variable {ε α : Type}

def sought (position : Nat) : Except (Fault ε) α → Sought ε α
  | .ok a => .found a
  | .error e => .fault position e

/-- Reads the field `name`, and takes `absent` if there is none. -/
def getOr (parts : Parts) (name : String) (read : Reader ε α) (absent : Except (Fault ε) α) :
    Sought ε α :=
  match parts.fields.filter (·.1 == name) with
  | [] => sought parts.fields.length absent
  | [(_, d)] => sought (parts.fields.findIdx (·.1 == name)) (read d)
  | _ => .fault parts.fields.length .shape

/-- Reads the field `name`, which must be there. -/
def get (parts : Parts) (name : String) (read : Reader ε α) : Sought ε α :=
  parts.getOr name read (.error (if parts.ordered then .shape else .missing name))

/-- Reads the field `name`, which stands for `default` if it is absent. -/
def getD (parts : Parts) (name : String) (read : Reader ε α) (default : α) : Sought ε α :=
  parts.getOr name read (.ok default)

end Parts

namespace Reader

variable {ε α : Type}

/-- Reads a record with these fields. Written as a list it may hold more items than fields only if
`spare`. A date or a time counts as a record without any of the fields. -/
def record (names : List String) (spare : Bool) (read : Parts → Sought ε α) : Reader ε α
  | .record fields => (read ⟨fields, false⟩).toExcept
  | .moment => (read ⟨[], false⟩).toExcept
  | .list items =>
    if spare || items.length ≤ names.length then (read ⟨names.zip items, true⟩).toExcept
    else .error .shape
  | _ => .error .shape

/-- Reads a record by the kind that its field `tag` names. In a record written as a list the kind
comes first. -/
def tagged (tag : String) (read : String → Reader ε α) : Reader ε α
  | .record fields =>
    match fields.filter (·.1 == tag) with
    | [(_, .text kind)] => read kind (.record (fields.filter (·.1 != tag)))
    | _ => .error .shape
  | .list (.text kind :: items) => read kind (.list items)
  | _ => .error .shape

def list (read : Reader ε α) : Reader ε (List α)
  | .list items => items.mapM read
  | _ => .error .shape

/-- `null` stands for no value. -/
def optional (read : Reader ε α) : Reader ε (Option α)
  | .null => .ok none
  | d => some <$> read d

def text : Reader ε String
  | .text s => .ok s
  | _ => .error .shape

def boolean : Reader ε Bool
  | .boolean b => .ok b
  | _ => .error .shape

/-- An integer from `least` to `greatest`. -/
def integer (least greatest : Int) : Reader ε Int
  | .integer n => if least ≤ n ∧ n ≤ greatest then .ok n else .error .shape
  | _ => .error .shape

def byte : Reader ε UInt8 := fun d => (fun n => UInt8.ofNat n.toNat) <$> integer 0 0xff d

def word : Reader ε UInt16 := fun d => (fun n => UInt16.ofNat n.toNat) <$> integer 0 0xffff d

def longWord : Reader ε UInt64 := fun d =>
  (fun n => UInt64.ofNat n.toNat) <$> integer 0 0xffffffffffffffff d

def score : Reader ε Int32 := fun d => Int32.ofInt <$> integer (-0x80000000) 0x7fffffff d

/-- Reads a text that another function turns into a value. -/
def ofText (parse : String → Option α) : Reader ε α
  | .text s =>
    match parse s with
    | some a => .ok a
    | none => .error .shape
  | _ => .error .shape

end Reader

end BundleTracker
