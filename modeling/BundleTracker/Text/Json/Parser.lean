import BundleTracker.Text.Json.Token

/-!
# Reading JSON

Tokens are shifted one at a time onto a stack of the lists and records that are
still open, so reading is structural in the tokens and takes any depth.
-/

namespace BundleTracker
namespace Json

/-- A list or a record that is still open; what it holds so far stands last first. The fields of a
record are lost once one of the names is garbled. -/
inductive Frame
  | list (items : List Datum)
  | record (fields : Option (List (String × Datum))) (name : String)

/-- What the next token has to be. -/
inductive Expected
  | value
  | valueOrClose
  | name (fields : Option (List (String × Datum)))
  | nameOrClose
  | colon (fields : Option (List (String × Datum))) (name : String)
  | separator (done : Datum)

/-- The record with these fields, which stand last first. -/
def recordOf : Option (List (String × Datum)) → Datum
  | some fields => .record fields.reverse
  | none => .garbled

/-- The value that the tokens complete. -/
def build : Expected → List Frame → List Token → Option Datum
  | .separator done, [], [] => some done
  | .separator done, .list items :: frames, .comma :: rest =>
    build .value (.list (done :: items) :: frames) rest
  | .separator done, .list items :: frames, .closeList :: rest =>
    build (.separator (.list (done :: items).reverse)) frames rest
  | .separator done, .record fields name :: frames, .comma :: rest =>
    build (.name (fields.map ((name, done) :: ·))) frames rest
  | .separator done, .record fields name :: frames, .closeRecord :: rest =>
    build (.separator (recordOf (fields.map ((name, done) :: ·)))) frames rest
  | .valueOrClose, .list [] :: frames, .closeList :: rest =>
    build (.separator (.list [])) frames rest
  | .nameOrClose, frames, .closeRecord :: rest => build (.separator (.record [])) frames rest
  | .nameOrClose, frames, .scalar (.text name) :: rest =>
    build (.colon (some []) name) frames rest
  | .nameOrClose, frames, .scalar .garbled :: rest => build (.colon none "") frames rest
  | .name fields, frames, .scalar (.text name) :: rest => build (.colon fields name) frames rest
  | .name _, frames, .scalar .garbled :: rest => build (.colon none "") frames rest
  | .colon fields name, frames, .colon :: rest => build .value (.record fields name :: frames) rest
  | .value, frames, .scalar d :: rest => build (.separator d) frames rest
  | .value, frames, .openList :: rest => build .valueOrClose (.list [] :: frames) rest
  | .value, frames, .openRecord :: rest => build .nameOrClose frames rest
  | .valueOrClose, frames, .scalar d :: rest => build (.separator d) frames rest
  | .valueOrClose, frames, .openList :: rest => build .valueOrClose (.list [] :: frames) rest
  | .valueOrClose, frames, .openRecord :: rest => build .nameOrClose frames rest
  | _, _, _ => none

/-- The document that a JSON text writes. -/
def read? (text : String) : Option Datum :=
  (tokens text.toList).bind (build .value [])

end Json
end BundleTracker
