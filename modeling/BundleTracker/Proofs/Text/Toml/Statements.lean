import Mathlib.Tactic
import BundleTracker.Proofs.Text.Toml.Scalars
import BundleTracker.Text.Toml.Statement

/-!
# Reading TOML statements

A field on a line of its own is read as an assignment, and the header of a table in a list as this
header, if their names need no quotes. Statements that were written one after the other are read
one after the other.
-/

namespace BundleTracker

namespace Toml

open Text

variable {c : Char} {n : Int} {cs rest front back : List Char} {name : String} {d : Datum}
  {first second : List Statement}

section Values

inductive Inline : Datum → Prop
  | text (s : String) : Inline (.text s)
  | integer {n : Int} : Fits n → Inline (.integer n)
  | boolean (b : Bool) : Inline (.boolean b)
  | nil : Inline (.list [])

def isOpening (c : Char) : Bool := c == '[' || c == '\x7b'

theorem scanValue_of_stopsAt (h : StopsAt isOpening cs) (levels : Nat) :
    scanValue (levels + 1) cs = scanScalar cs := by
  rw [scanValue]
  · exact h.ne_cons rfl
  · exact h.ne_cons rfl

theorem isOpening_of_isQuote (h : isQuote c = true) : isOpening c = false ∧ isSpace c = false := by
  simp only [isQuote, Bool.or_eq_true, beq_iff_eq] at h
  rcases h with rfl | rfl
  · exact ⟨rfl, rfl⟩
  · exact ⟨rfl, rfl⟩

theorem Inline.scan_text (h : Inline d) (levels : Nat) :
    ∃ value, scalarText? d = some value ∧ ∀ rest, StopsAt isSpace (value ++ '\n' :: rest) ∧
      scanValue (levels + 1) (value ++ '\n' :: rest) = some (d, '\n' :: rest) := by
  cases h with
  | text s =>
    refine ⟨quoted s, rfl, fun rest => ?_⟩
    obtain ⟨q, more, hquoted, hq⟩ := exists_quoted_eq s
    obtain ⟨hopening, hspace⟩ := isOpening_of_isQuote hq
    have hscan := scanScalar_quoted s rest
    rw [hquoted] at hscan ⊢
    exact ⟨stopsAt_cons hspace, (scanValue_of_stopsAt (stopsAt_cons hopening) levels).trans hscan⟩
  | @integer n hn =>
    refine ⟨Json.integerText n, if_pos hn, fun rest => ?_⟩
    obtain ⟨c, more, htext, hc, -⟩ := Json.exists_integerText_eq n
    have hscan := scanScalar_integerText hn rest
    have hspace : isSpace c = false := by
      simp [isSpace, ne_of_kind hc (d := ' ') (by decide),
        ne_of_kind hc (d := '\t') (by decide)]
    have hopening : isOpening c = false := by
      simp [isOpening, ne_of_kind hc (d := '[') (by decide),
        ne_of_kind hc (d := '\x7b') (by decide)]
    rw [htext] at hscan ⊢
    exact ⟨stopsAt_cons hspace, (scanValue_of_stopsAt (stopsAt_cons hopening) levels).trans hscan⟩
  | boolean b =>
    cases b with
    | false => exact ⟨_, rfl, fun rest => ⟨stopsAt_cons rfl, rfl⟩⟩
    | true => exact ⟨_, rfl, fun rest => ⟨stopsAt_cons rfl, rfl⟩⟩
  | nil => exact ⟨_, rfl, fun rest => ⟨stopsAt_cons rfl, rfl⟩⟩

end Values

section Names

def Bare (name : String) : Prop := name.toList ≠ [] ∧ name.toList.all isBare = true

instance (name : String) : Decidable (Bare name) := inferInstanceAs (Decidable (_ ∧ _))

theorem Bare.isBare_of_mem (h : Bare name) : ∀ c ∈ name.toList, isBare c = true :=
  List.all_eq_true.mp h.2

theorem Bare.exists_cons (h : Bare name) :
    ∃ c more, name.toList = c :: more ∧ isBare c = true := by
  obtain ⟨c, more, hname⟩ := List.exists_cons_of_ne_nil h.1
  exact ⟨c, more, hname, h.isBare_of_mem c (by rw [hname]; exact List.mem_cons_self)⟩

theorem isSpace_of_isBare (h : isBare c = true) : isSpace c = false := by
  simp [isSpace, ne_of_kind h (d := ' ') (by decide), ne_of_kind h (d := '\t') (by decide)]

theorem scanName_append (h : Bare name) (hrest : StopsAt isBare rest) :
    scanName (name.toList ++ rest) = some (name, rest) := by
  obtain ⟨c, more, hname, hc⟩ := h.exists_cons
  have htake := takeWhile_append h.isBare_of_mem hrest
  have hdrop := dropWhile_append h.isBare_of_mem hrest
  have hback : String.ofList (c :: more) = name := by rw [← hname, String.ofList_toList]
  rw [hname] at htake hdrop ⊢
  rw [List.cons_append] at htake hdrop ⊢
  rw [scanName, htake, hdrop]
  · rw [← hback]
    rfl
  · exact fun _ hq => ne_of_kind hc (by decide) (List.cons.inj hq).1
  · exact fun _ hq => ne_of_kind hc (by decide) (List.cons.inj hq).1

/-- A path of one name ends where no point follows the name. -/
theorem scanPath_append (h : Bare name) (hrest : StopsAt isBare rest) {d : Char} {more : List Char}
    (hskip : skipSpaces rest = d :: more) (hdot : d ≠ '.') (limit : Nat) :
    scanPath (limit + 1) (name.toList ++ rest) = some ([name], d :: more) := by
  obtain ⟨c, front, hname, hc⟩ := h.exists_cons
  have hfront : skipSpaces (name.toList ++ rest) = name.toList ++ rest := by
    rw [hname]
    exact dropWhile_eq_self (stopsAt_cons (isSpace_of_isBare hc))
  rw [scanPath, hfront, scanName_append h hrest]
  simp only [Option.bind_eq_bind, Option.bind_some, hskip]
  split
  · rename_i heq
    exact absurd (List.cons.inj heq).1 hdot
  · rfl

end Names

section Lines

theorem scanStatement_assignment (h : Bare name) {value : List Char}
    (hspace : StopsAt isSpace (value ++ '\n' :: rest))
    (hvalue : scanValue maxDepth (value ++ '\n' :: rest) = some (d, '\n' :: rest)) :
    scanStatement (name.toList ++ " = ".toList ++ value ++ '\n' :: rest) =
      some (.assign [name] d, '\n' :: rest) := by
  obtain ⟨c, front, hname, hc⟩ := h.exists_cons
  have hpath : scanPath maxDepth (name.toList ++ ' ' :: '=' :: ' ' :: (value ++ '\n' :: rest)) =
      some ([name], '=' :: ' ' :: (value ++ '\n' :: rest)) :=
    scanPath_append h (stopsAt_cons rfl) rfl (by decide) _
  have hskip : skipSpaces (' ' :: (value ++ '\n' :: rest)) = value ++ '\n' :: rest :=
    dropWhile_eq_self hspace
  have hassignment : scanAssignment (scanValue maxDepth)
      (name.toList ++ ' ' :: '=' :: ' ' :: (value ++ '\n' :: rest)) =
        some (([name], d), '\n' :: rest) := by
    rw [scanAssignment, hpath]
    simp only [Option.bind_eq_bind, Option.bind_some, hskip, hvalue, Option.pure_def]
  have htext : name.toList ++ " = ".toList ++ value ++ '\n' :: rest =
      name.toList ++ ' ' :: '=' :: ' ' :: (value ++ '\n' :: rest) := by simp
  rw [htext]
  rw [hname] at hassignment ⊢
  rw [List.cons_append] at hassignment ⊢
  rw [scanStatement, hassignment]
  · rfl
  · exact fun _ hopen => ne_of_kind hc (by decide) (List.cons.inj hopen).1
  · exact fun _ hopen => ne_of_kind hc (by decide) (List.cons.inj hopen).1

theorem scanStatement_header (h : Bare name) (rest : List Char) :
    scanStatement ("[[".toList ++ name.toList ++ "]]".toList ++ '\n' :: rest) =
      some (.tables [name], '\n' :: rest) := by
  have hpath : scanPath maxDepth (name.toList ++ ']' :: ']' :: '\n' :: rest) =
      some ([name], ']' :: ']' :: '\n' :: rest) :=
    scanPath_append h (stopsAt_cons rfl) rfl (by decide) _
  have htext : "[[".toList ++ name.toList ++ "]]".toList ++ '\n' :: rest =
      '[' :: '[' :: (name.toList ++ ']' :: ']' :: '\n' :: rest) := by simp
  rw [htext, scanStatement, hpath]
  rfl

end Lines

section Runs

/-- Whether a text is read as some statements, whatever follows it. It does not begin with a byte
order mark. -/
structure Yields (text : List Char) (read : List Statement) : Prop where
  unmarked : StopsAt (· == '\ufeff') text
  length_le : read.length ≤ text.length
  scan : ∀ limit rest, scanStatements (limit + read.length) (text ++ rest) =
    (scanStatements limit rest).map (read ++ ·)

theorem Yields.nil : Yields [] [] where
  unmarked := stopsAt_nil
  length_le := le_rfl
  scan limit rest := by simp

theorem Yields.append (hfront : Yields front first) (hback : Yields back second) :
    Yields (front ++ back) (first ++ second) where
  unmarked := by
    cases front with
    | nil => exact hback.unmarked
    | cons c front => exact hfront.unmarked
  length_le := by
    have h := hfront.length_le
    have h' := hback.length_le
    simp only [List.length_append]
    omega
  scan limit rest := by
    have h := hfront.scan (limit + second.length) (back ++ rest)
    rw [hback.scan, Option.map_map] at h
    rw [List.length_append, List.append_assoc, Nat.add_comm first.length, ← Nat.add_assoc, h]
    simp [Function.comp_def]

/-- Whether a character begins a statement: a bracket or a name. -/
def isStart (c : Char) : Bool := c == '[' || isBare c

theorem skipBlanks_of_isStart (hc : isStart c = true) (cs : List Char) :
    skipBlanks false (c :: cs) = c :: cs := by
  have hspace : isSpace c = false := by
    simp [isSpace, ne_of_kind hc (d := ' ') (by decide), ne_of_kind hc (d := '\t') (by decide)]
  rw [skipBlanks, hspace]
  · rfl
  · exact fun _ hr => absurd hr (ne_of_kind hc (by decide))
  · exact ne_of_kind hc (by decide)
  · exact ne_of_kind hc (by decide)

theorem Yields.line {statement : Statement} {cs : List Char} (hc : isStart c = true)
    (hscan : ∀ rest, scanStatement (c :: cs ++ '\n' :: rest) = some (statement, '\n' :: rest)) :
    Yields (c :: cs ++ ['\n']) [statement] where
  unmarked := by
    refine stopsAt_cons ?_
    rw [beq_eq_false_iff_ne]
    rintro rfl
    exact absurd hc (by decide)
  length_le := by simp
  scan limit rest := by
    have hread := hscan rest
    rw [List.cons_append] at hread
    have hend : lineEnd? ('\n' :: rest) = some rest := rfl
    rw [List.append_assoc, List.cons_append, List.length_singleton, scanStatements,
      skipBlanks_of_isStart hc]
    simp only [List.singleton_append, hread, hend, Option.bind_eq_bind, Option.bind_some]
    cases scanStatements limit rest <;> rfl

theorem Yields.newLine {read : List Statement} (h : Yields cs read) (hne : read ≠ []) :
    Yields ('\n' :: cs) read where
  unmarked := stopsAt_cons rfl
  length_le := Nat.le_succ_of_le h.length_le
  scan limit rest := by
    obtain ⟨statement, more, rfl⟩ := List.exists_cons_of_ne_nil hne
    have hscan := h.scan limit rest
    rw [List.length_cons, ← Nat.add_assoc, scanStatements] at hscan ⊢
    exact hscan

theorem Inline.yields (hd : Inline d) (h : Bare name) :
    ∃ text, assignmentText? name d = some text ∧ Yields text [.assign [name] d] := by
  obtain ⟨value, hvalue, hscan⟩ := hd.scan_text 78
  obtain ⟨c, more, hname, hc⟩ := h.exists_cons
  refine ⟨_, by rw [assignmentText?, hvalue, Option.map_some], ?_⟩
  have hread : ∀ rest, scanStatement (name.toList ++ " = ".toList ++ value ++ '\n' :: rest) =
      some (.assign [name] d, '\n' :: rest) :=
    fun rest => scanStatement_assignment h (hscan rest).1 (hscan rest).2
  rw [hname] at hread ⊢
  exact .line (by rw [isStart, hc, Bool.or_true]) hread

theorem yields_header (h : Bare name) :
    Yields ('\n' :: ("[[".toList ++ name.toList ++ "]]\n".toList)) [.tables [name]] := by
  have hread := scanStatement_header h
  have htext : "[[".toList ++ name.toList ++ "]]\n".toList =
      "[[".toList ++ name.toList ++ "]]".toList ++ ['\n'] := by simp
  rw [htext]
  exact (Yields.line rfl hread).newLine (List.cons_ne_nil _ _)

/-- A text that is read whole holds just these statements. -/
theorem Yields.statements_eq {read : List Statement} (h : Yields cs read) :
    statements cs = some read := by
  have hlength := h.length_le
  have hscan := h.scan (cs.length - read.length + 1) []
  have hend : scanStatements (cs.length - read.length + 1) [] = some [] := rfl
  rw [hend, Option.map_some, List.append_nil, List.append_nil] at hscan
  have hlimit : cs.length - read.length + 1 + read.length = cs.length + 1 := by omega
  rw [hlimit] at hscan
  exact hscan

end Runs

end Toml

end BundleTracker
