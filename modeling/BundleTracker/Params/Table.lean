import Std.Data.ExtTreeMap
import BundleTracker.Params.Sidechain

/-!
# The table of registered sidechains

Every entry is valid and stands under its own index. A table is made from a
list by adding one sidechain after the other; the first one that is not valid,
or whose index is taken, is reported.
-/

namespace BundleTracker

structure SidechainTable where
  entries : Std.ExtTreeMap UInt8 Sidechain
  index_eq : ∀ {i : UInt8} {s : Sidechain}, entries[i]? = some s → s.index = i
  valid : ∀ {i : UInt8} {s : Sidechain}, entries[i]? = some s → s.Valid
  deriving DecidableEq

namespace SidechainTable

def get? (t : SidechainTable) (index : UInt8) : Option Sidechain := t.entries[index]?

def contains (t : SidechainTable) (index : UInt8) : Bool := (t.get? index).isSome

/-- The sidechains in ascending order of their indices. -/
def toList (t : SidechainTable) : List Sidechain := t.entries.toList.map (·.2)

def size (t : SidechainTable) : Nat := t.entries.size

def empty : SidechainTable where
  entries := ∅
  index_eq h := by simp at h
  valid h := by simp at h

def insert (t : SidechainTable) (s : Sidechain) (h : s.Valid) : SidechainTable where
  entries := t.entries.insert s.index s
  index_eq {i s'} h' := by
    rw [Std.ExtTreeMap.getElem?_insert] at h'
    split at h'
    · rename_i hi
      obtain rfl := Option.some.inj h'
      exact Std.LawfulEqCmp.eq_of_compare hi
    · exact t.index_eq h'
  valid {i s'} h' := by
    rw [Std.ExtTreeMap.getElem?_insert] at h'
    split at h'
    · obtain rfl := Option.some.inj h'
      exact h
    · exact t.valid h'

/-- Adds a sidechain that is valid and whose index is free. -/
def add (t : SidechainTable) (s : Sidechain) : Except SidechainError SidechainTable :=
  match h : s.check with
  | .error e => .error e
  | .ok () =>
    if t.contains s.index then .error (.duplicate s.index)
    else .ok (t.insert s (Sidechain.check_eq_ok_iff.1 h))

def ofList (sidechains : List Sidechain) : Except SidechainError SidechainTable :=
  sidechains.foldlM add empty

/-- The sidechains that are registered from the start. -/
def standard : SidechainTable :=
  ((empty.insert (Sidechain.mk 0 "test" 300 100) (by decide)).insert
    (Sidechain.mk 1 "hivemind" 300 100) (by decide)).insert
      (Sidechain.mk 2 "wimble" 300 100) (by decide)

@[ext] theorem ext {t u : SidechainTable} (h : ∀ i, t.get? i = u.get? i) : t = u := by
  cases t; cases u
  congr
  exact Std.ExtTreeMap.ext_getElem? fun i => h i

@[simp] theorem get?_empty (i : UInt8) : empty.get? i = none := by simp [get?, empty]

theorem get?_insert (t : SidechainTable) (s : Sidechain) (h : s.Valid) (i : UInt8) :
    (t.insert s h).get? i = if s.index = i then some s else t.get? i := by
  simp only [get?, insert, Std.ExtTreeMap.getElem?_insert, Std.compare_eq_iff_eq]

theorem mem_toList {t : SidechainTable} {s : Sidechain} :
    s ∈ t.toList ↔ t.get? s.index = some s := by
  simp only [toList, List.mem_map, Prod.exists, exists_eq_right, get?,
    Std.ExtTreeMap.mem_toList_iff_getElem?_eq_some]
  constructor
  · rintro ⟨i, h⟩
    rwa [t.index_eq h]
  · exact fun h => ⟨_, h⟩

end SidechainTable

end BundleTracker
