import BundleTracker.Bytes.Block
import BundleTracker.Bytes.Hex

/-!
# Tags

Four bytes that mark a script as belonging to the sidechain data. The text
form is hexadecimal; a reader may put `0x` in front.
-/

namespace BundleTracker

abbrev Tag := Block 4

/-- Why bytes or text are not a tag. -/
inductive TagError
  | size (bytes : Nat)
  | notHex
  deriving DecidableEq

def TagError.message : TagError → String
  | .size bytes => s!"tag size must be exactly 4 bytes, got {bytes} bytes"
  | .notHex => "failed to convert Vec<u8> to [u8; 4]"

namespace Tag

def ofBytes (bytes : List UInt8) : Except TagError Tag :=
  match Block.ofList? bytes with
  | some tag => .ok tag
  | none => .error (.size bytes.length)

/-- Drops one leading `0x`. -/
def dropMark : List Char → List Char
  | '0' :: 'x' :: digits => digits
  | digits => digits

def ofText (s : String) : Except TagError Tag :=
  match Hex.decode (dropMark s.toList) with
  | some bytes => ofBytes bytes
  | none => .error .notHex

def text (tag : Tag) : String := Hex.text tag.toList

def isZero (tag : Tag) : Bool := tag.toList.all (· == 0)

/-- Whether `bytes` begins with the tag. -/
def begins (tag : Tag) (bytes : List UInt8) : Bool := tag.toList.isPrefixOf bytes

/-- Bytes that begin with the tag are the tag and the rest. -/
theorem begins_and_drop_iff {tag : Tag} {bytes rest : List UInt8} :
    tag.begins bytes = true ∧ bytes.drop 4 = rest ↔ bytes = tag.toList ++ rest := by
  rw [begins, List.isPrefixOf_iff_prefix]
  constructor
  · rintro ⟨⟨others, rfl⟩, rfl⟩
    rw [List.drop_left' tag.length_toList]
  · rintro rfl
    exact ⟨List.prefix_append _ _, List.drop_left' tag.length_toList⟩

/-- The tag of four given bytes. -/
def mk (a b c d : UInt8) : Tag := ⟨[a, b, c, d], rfl⟩

@[simp] theorem ofBytes_toList (tag : Tag) : ofBytes tag.toList = .ok tag := by
  simp [ofBytes]

theorem dropMark_encode (bytes : List UInt8) : dropMark (Hex.encode bytes) = Hex.encode bytes := by
  cases bytes with
  | nil => rfl
  | cons b rest =>
    have h : ∀ m : Fin 16, Nat.digitChar m.val ≠ 'x' := by decide
    have hx := h ⟨b.toNat % 16, Nat.mod_lt _ (by decide)⟩
    simp only [Hex.encode, List.flatMap_cons, Hex.digits, List.cons_append, List.nil_append]
    unfold dropMark
    split
    · rename_i heq
      simp only [List.cons.injEq] at heq
      exact absurd heq.2.1 hx
    · rfl

@[simp] theorem ofText_text (tag : Tag) : ofText tag.text = .ok tag := by
  simp [ofText, text, Hex.text, dropMark_encode, Hex.decode_encode]

end Tag

end BundleTracker
