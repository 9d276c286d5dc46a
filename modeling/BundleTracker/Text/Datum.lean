/-!
# Documents

What a text document holds, whether it is written in JSON or in TOML: scalars,
lists, and records whose fields keep the order and the repetitions of the text.
Integers are apart from other numbers. Scalars that no typed field can take are
kept only as far as a reader has to tell them apart.
-/

namespace BundleTracker

inductive Datum
  | null
  | boolean (value : Bool)
  | integer (value : Int)
  /-- A number that is not an integer, or too large for one. -/
  | real
  /-- A date or a time of day. -/
  | moment
  /-- A number beyond the range of doubles, which the notation admits. -/
  | excessive
  /-- A text with half of a surrogate pair, or a record with such a name, which the notation
  admits. -/
  | garbled
  | text (value : String)
  | list (items : List Datum)
  | record (fields : List (String × Datum))
  deriving Inhabited

namespace Datum

/-- Whether lists and records nest at most `levels` deep and everything in them has a value. -/
def isSound : Nat → Datum → Bool
  | _, .excessive => false
  | _, .garbled => false
  | 0, .list _ => false
  | 0, .record _ => false
  | levels + 1, .list items => items.all (isSound levels)
  | levels + 1, .record fields => fields.all fun f => isSound levels f.2
  | _, _ => true

mutual

/-- The same value with the fields of every record in the order of their names. -/
def sorted : Datum → Datum
  | .list items => .list (sortedItems items)
  | .record fields => .record ((sortedFields fields).mergeSort fun f g => f.1 ≤ g.1)
  | d => d

def sortedItems : List Datum → List Datum
  | [] => []
  | item :: items => sorted item :: sortedItems items

def sortedFields : List (String × Datum) → List (String × Datum)
  | [] => []
  | (name, d) :: fields => (name, sorted d) :: sortedFields fields

end

end Datum

end BundleTracker
