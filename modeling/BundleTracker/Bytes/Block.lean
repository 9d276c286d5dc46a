/-!
# Byte strings of fixed length

A block is a list of bytes together with its length. Blocks are ordered byte
by byte from the front, in the order in which they are stored; tags, key
hashes and digests are blocks of 4, 20 and 32 bytes.
-/

namespace BundleTracker

/-- A byte string of exactly `n` bytes. -/
@[ext] structure Block (n : Nat) where
  toList : List UInt8
  length_toList : toList.length = n
  deriving DecidableEq

namespace Block

variable {n : Nat}

attribute [simp] length_toList

theorem toList_inj {a b : Block n} : a.toList = b.toList ↔ a = b :=
  ⟨Block.ext, fun h => h ▸ rfl⟩

/-- The block with these bytes, if there are `n` of them. -/
def ofList? (bytes : List UInt8) : Option (Block n) :=
  if h : bytes.length = n then some ⟨bytes, h⟩ else none

theorem ofList?_eq_some_iff {bytes : List UInt8} {b : Block n} :
    ofList? bytes = some b ↔ bytes = b.toList := by
  unfold ofList?
  split
  · rw [Option.some_inj, ← toList_inj]
  · rename_i h
    simp only [reduceCtorEq, false_iff]
    rintro rfl
    exact h b.length_toList

@[simp] theorem ofList?_toList (b : Block n) : ofList? b.toList = some b :=
  ofList?_eq_some_iff.2 rfl

def zero (n : Nat) : Block n := ⟨List.replicate n 0, List.length_replicate⟩

instance : Inhabited (Block n) := ⟨zero n⟩

/-- The same bytes, last one first. -/
def reverse (b : Block n) : Block n := ⟨b.toList.reverse, by simp⟩

@[simp] theorem toList_reverse (b : Block n) : b.reverse.toList = b.toList.reverse := rfl

@[simp] theorem reverse_reverse (b : Block n) : b.reverse.reverse = b := by
  ext1; simp

instance : Ord (Block n) := ⟨compareOn toList⟩

instance : Std.TransOrd (Block n) :=
  inferInstanceAs (Std.TransCmp (compareOn (toList : Block n → List UInt8)))

instance : Std.LawfulEqOrd (Block n) where
  compare_self {a} := show compare a.toList a.toList = .eq from Std.compare_self
  eq_of_compare {a b} h :=
    Block.ext (Std.LawfulEqOrd.eq_of_compare (show compare a.toList b.toList = .eq from h))

end Block

end BundleTracker
