import Mathlib.Tactic
import BundleTracker.Proofs.Text.Numbers
import BundleTracker.Text.Toml.Printer

/-!
# Reading TOML strings

A string is read as the text that it was written for, in whichever form it stands. On one line it
is read character by character. Between triple quotes up to two quotes in a row belong to the text,
so a quote is told from the closing ones only by what follows it.
-/

namespace BundleTracker

namespace Toml

open Text

variable {c e q : Char} {m : Nat} {cs rest written : List Char}
  {scan : List Char → Option (List Char × List Char)} {Piece : Char → List Char → Prop}

section Escapes

theorem toNat_lt_of_isPlain_eq_false (h : isPlain c = false) : c.toNat < 128 := by
  by_contra hge
  have hspace : ' ' ≤ c := show 32 ≤ c.toNat by omega
  have hdelete : c ≠ '\x7f' := by
    rintro rfl
    exact hge (by decide)
  simp [isPlain, hspace, hdelete] at h

theorem escape_cases (c : Char) :
    (∃ e, shortEscape? e = some c ∧ escape c = ['\\', e]) ∨
      (isPlain c = false ∧ escape c = codeEscape c) ∨
      (isPlain c = true ∧ c ≠ '"' ∧ c ≠ '\\' ∧ escape c = [c]) := by
  unfold escape
  split_ifs with hb ht hn hf hr hquote hslash hplain
  · exact .inl ⟨'b', by rw [hb]; rfl, rfl⟩
  · exact .inl ⟨'t', by rw [ht]; rfl, rfl⟩
  · exact .inl ⟨'n', by rw [hn]; rfl, rfl⟩
  · exact .inl ⟨'f', by rw [hf]; rfl, rfl⟩
  · exact .inl ⟨'r', by rw [hr]; rfl, rfl⟩
  · exact .inl ⟨'"', by rw [hquote]; rfl, rfl⟩
  · exact .inl ⟨'\\', by rw [hslash]; rfl, rfl⟩
  · exact .inr (.inr ⟨hplain, hquote, hslash, rfl⟩)
  · exact .inr (.inl ⟨by simpa using hplain, rfl⟩)

/-- An escaped character begins neither with a quote nor with a line break. -/
theorem exists_escape_eq (c : Char) :
    ∃ d ds, escape c = d :: ds ∧ d ≠ '"' ∧ d ≠ '\r' ∧ d ≠ '\n' := by
  rcases escape_cases c with ⟨e, -, h⟩ | ⟨-, h⟩ | ⟨hplain, hquote, -, h⟩
  · exact ⟨'\\', [e], h, by decide, by decide, by decide⟩
  · exact ⟨'\\', _, h, by decide, by decide, by decide⟩
  · exact ⟨c, [], h, hquote, ne_of_kind hplain (by decide), ne_of_kind hplain (by decide)⟩

theorem ne_of_shortEscape? (he : shortEscape? e = some c) {d : Char}
    (hd : shortEscape? d = none) : e ≠ d := by
  rintro rfl
  rw [he] at hd
  cases hd

theorem codePoint?_code (h : c.toNat < 128) :
    codePoint? ['0', '0', Nat.digitChar (c.toNat / 16), (Nat.digitChar (c.toNat % 16)).toUpper] =
      some c := by
  have hzero : Hex.digit? '0' = some 0 := by decide
  have hupper : ∀ n < 16, Hex.digit? (Nat.digitChar n).toUpper = some n := by decide
  have hhigh : Hex.digit? (Nat.digitChar (c.toNat / 16)) = some (c.toNat / 16) :=
    Hex.digit?_digitChar (by omega)
  have hvalues : ['0', '0', Nat.digitChar (c.toNat / 16),
      (Nat.digitChar (c.toNat % 16)).toUpper].mapM Hex.digit? =
        some [0, 0, c.toNat / 16, c.toNat % 16] := by
    simp [hzero, hhigh, hupper (c.toNat % 16) (by omega)]
  have hcode : [0, 0, c.toNat / 16, c.toNat % 16].foldl (16 * · + ·) 0 = c.toNat := by
    simp only [List.foldl_cons, List.foldl_nil]
    omega
  rw [codePoint?, hvalues]
  simp only [Option.bind_eq_bind, Option.bind_some, hcode]
  rw [if_pos (show c.toNat.isValidChar from c.valid), Char.ofNat_toNat]

end Escapes

section OneLine

theorem scanBasic_escape (c : Char) (rest : List Char) :
    scanBasic (escape c ++ rest) = prepend c (scanBasic rest) := by
  rcases escape_cases c with ⟨e, he, h⟩ | ⟨hplain, h⟩ | ⟨hplain, hquote, hslash, h⟩
  · rw [h, List.cons_append, List.singleton_append, scanBasic, he]
    · rfl
    · exact fun _ _ _ _ _ hu => absurd hu (ne_of_shortEscape? he (by decide))
    · exact fun _ _ _ _ _ _ _ _ _ hu => absurd hu (ne_of_shortEscape? he (by decide))
  · rw [h]
    simp only [codeEscape, List.cons_append, List.nil_append]
    rw [scanBasic, codePoint?_code (toNat_lt_of_isPlain_eq_false hplain)]
    rfl
  · rw [h, List.singleton_append, scanBasic, if_pos (by simp [hplain, hslash])]
    · exact hquote
    · exact fun _ _ _ _ _ hc => absurd hc hslash
    · exact fun _ _ _ _ _ _ _ _ _ hc => absurd hc hslash
    · exact fun _ _ hc => absurd hc hslash

theorem scanBasic_flatMap_escape (cs rest : List Char) :
    scanBasic (cs.flatMap escape ++ '"' :: rest) = some (cs, rest) := by
  induction cs with
  | nil => rfl
  | cons c cs ih =>
    rw [List.flatMap_cons, List.append_assoc, scanBasic_escape, ih]
    rfl

theorem scanLiteral_append (hcs : ∀ c ∈ cs, isPlain c = true ∧ c ≠ '\'') (rest : List Char) :
    scanLiteral (cs ++ '\'' :: rest) = some (cs, rest) := by
  induction cs with
  | nil => rfl
  | cons c cs ih =>
    rw [List.forall_mem_cons] at hcs
    rw [List.cons_append, scanLiteral, if_pos hcs.1.1, ih hcs.2]
    · rfl
    · exact hcs.1.2

end OneLine

section SeveralLines

/-- How a scanner takes texts between triple quotes apart: into pieces that stand for one character
each, and quotes that do not close the text. -/
structure Splits (scan : List Char → Option (List Char × List Char)) (q : Char)
    (Piece : Char → List Char → Prop) : Prop where
  quote : ∀ {rest}, ¬ [q, q] <+: rest → scan (q :: rest) = prepend q (scan rest)
  piece : ∀ {c written}, Piece c written → ∀ rest, scan (written ++ rest) = prepend c (scan rest)
  piece_head : ∀ {c written}, Piece c written → ∃ d ds, written = d :: ds ∧ d ≠ q
  close : ∀ {n rest}, n ≤ 2 → StopsAt (· == q) rest →
    scan (List.replicate n q ++ q :: q :: q :: rest) = some (List.replicate n q, rest)

/-- A text as it is written between triple quotes and as it is read: at most two quotes stand in a
row. -/
inductive Inner (q : Char) (Piece : Char → List Char → Prop) : List Char → List Char → Prop
  | last {n : Nat} : n ≤ 2 → Inner q Piece (List.replicate n q) (List.replicate n q)
  | piece {n : Nat} {c : Char} {front written cs : List Char} : n ≤ 2 → Piece c front →
      Inner q Piece written cs →
      Inner q Piece (List.replicate n q ++ (front ++ written)) (List.replicate n q ++ c :: cs)

/-- Up to two quotes in front of another character do not close the text. -/
theorem Splits.replicate_append (h : Splits scan q Piece) {n : Nat} (hn : n ≤ 2) {d : Char}
    (hd : d ≠ q) (rest : List Char) :
    scan (List.replicate n q ++ d :: rest) =
      (scan (d :: rest)).map fun p => (List.replicate n q ++ p.1, p.2) := by
  have hshort (k : Nat) (hk : k ≤ 1) : ¬ [q, q] <+: List.replicate k q ++ d :: rest := by
    interval_cases k <;> simp [List.cons_prefix_cons, hd.symm]
  induction n with
  | zero => simp
  | succ n ih =>
    rw [List.replicate_succ, List.cons_append, h.quote (hshort n (by omega)), ih (by omega),
      prepend, Option.map_map]
    rfl

theorem Inner.scan_eq (h : Inner q Piece written cs) (hsplits : Splits scan q Piece)
    (hrest : StopsAt (· == q) rest) :
    scan (written ++ q :: q :: q :: rest) = some (cs, rest) := by
  induction h with
  | last hn => exact hsplits.close hn hrest
  | @piece n c front written cs hn hfront _ ih =>
    obtain ⟨d, ds, hds, hd⟩ := hsplits.piece_head hfront
    have hpiece := hsplits.piece hfront (written ++ q :: q :: q :: rest)
    rw [ih, hds] at hpiece
    rw [List.append_assoc, List.append_assoc, hds, List.cons_append,
      hsplits.replicate_append hn hd, ← List.cons_append, hpiece]
    rfl

def EscapedPiece (c : Char) (written : List Char) : Prop :=
  written = escape c ∨ c = '\n' ∧ written = ['\n']

def LiteralPiece (c : Char) (written : List Char) : Prop :=
  written = [c] ∧ c ≠ '\'' ∧ (c = '\n' ∨ isPlain c = true)

theorem scanLongBasic_of_isPlain (hplain : isPlain c = true) (hslash : c ≠ '\\')
    (hquote : c = '"' → ¬ ['"', '"'] <+: rest) :
    scanLongBasic .nothing (c :: rest) = prepend c (scanLongBasic .nothing rest) := by
  have hr : c ≠ '\r' := ne_of_kind hplain (by decide)
  have hn : c ≠ '\n' := ne_of_kind hplain (by decide)
  rw [scanLongBasic, if_pos (by simp [hplain, hslash])]
  all_goals grind

theorem scanLongBasic_escape (c : Char) (rest : List Char) :
    scanLongBasic .nothing (escape c ++ rest) = prepend c (scanLongBasic .nothing rest) := by
  rcases escape_cases c with ⟨e, he, h⟩ | ⟨hplain, h⟩ | ⟨hplain, hquote, hslash, h⟩
  · have hspace : isSpace e = false := by
      simp [isSpace, ne_of_shortEscape? he (d := ' ') (by decide),
        ne_of_shortEscape? he (d := '\t') (by decide)]
    have hu : e ≠ 'u' := ne_of_shortEscape? he (by decide)
    have hU : e ≠ 'U' := ne_of_shortEscape? he (by decide)
    have hr : e ≠ '\r' := ne_of_shortEscape? he (by decide)
    have hn : e ≠ '\n' := ne_of_shortEscape? he (by decide)
    rw [h, List.cons_append, List.singleton_append, scanLongBasic, hspace, he]
    · rfl
    all_goals grind
  · rw [h]
    simp only [codeEscape, List.cons_append, List.nil_append]
    rw [scanLongBasic, codePoint?_code (toNat_lt_of_isPlain_eq_false hplain)]
    · rfl
    all_goals nofun
  · rw [h]
    exact scanLongBasic_of_isPlain hplain hslash fun hc => absurd hc hquote

theorem splits_scanLongBasic : Splits (scanLongBasic .nothing) '"' EscapedPiece where
  quote h := scanLongBasic_of_isPlain (by decide) (by decide) fun _ => h
  piece := by
    rintro c written (rfl | ⟨rfl, rfl⟩) rest
    · exact scanLongBasic_escape c rest
    · rfl
  piece_head := by
    rintro c written (rfl | ⟨rfl, rfl⟩)
    · obtain ⟨d, ds, h, hd, -⟩ := exists_escape_eq c
      exact ⟨d, ds, h, hd⟩
    · exact ⟨'\n', [], rfl, by decide⟩
  close := by
    intro n rest hn hrest
    have hne := hrest.ne_cons (beq_self_eq_true '"')
    interval_cases n
    · show scanLongBasic .nothing ('"' :: '"' :: '"' :: rest) = some ([], rest)
      rw [scanLongBasic]
      all_goals grind
    · show scanLongBasic .nothing ('"' :: '"' :: '"' :: '"' :: rest) = some (['"'], rest)
      rw [scanLongBasic]
      all_goals grind
    · rfl

theorem splits_scanLongLiteral : Splits scanLongLiteral '\'' LiteralPiece where
  quote := by
    intro rest h
    rw [scanLongLiteral, if_pos (by decide)]
    all_goals grind
  piece := by
    rintro c written ⟨rfl, hquote, rfl | hplain⟩ rest
    · rfl
    · have hr : c ≠ '\r' := ne_of_kind hplain (by decide)
      have hn : c ≠ '\n' := ne_of_kind hplain (by decide)
      rw [List.singleton_append, scanLongLiteral, if_pos hplain]
      all_goals grind
  piece_head := by
    rintro c written ⟨rfl, hquote, -⟩
    exact ⟨c, [], rfl, hquote⟩
  close := by
    intro n rest hn hrest
    have hne := hrest.ne_cons (beq_self_eq_true '\'')
    interval_cases n
    · show scanLongLiteral ('\'' :: '\'' :: '\'' :: rest) = some ([], rest)
      rw [scanLongLiteral]
      all_goals grind
    · show scanLongLiteral ('\'' :: '\'' :: '\'' :: '\'' :: rest) = some (['\''], rest)
      rw [scanLongLiteral]
      all_goals grind
    · rfl

/-- The quotes that were counted are those in front, since another piece sets the count back. -/
theorem inner_escapeLong (cs : List Char) {quotes : Nat} (h : quotes ≤ 2) :
    Inner '"' EscapedPiece (List.replicate quotes '"' ++ escapeLong quotes cs)
      (List.replicate quotes '"' ++ cs) := by
  induction cs generalizing quotes with
  | nil =>
    rw [escapeLong, List.append_nil]
    exact .last h
  | cons c cs ih =>
    have hrest := ih (Nat.zero_le 2)
    rw [escapeLong]
    split_ifs with hquote hfew hbreak
    · have hnext := ih (show quotes + 1 ≤ 2 by omega)
      rw [List.replicate_succ', List.append_assoc, List.append_assoc] at hnext
      rwa [hquote]
    · rw [hquote]
      exact .piece h (.inl rfl) hrest
    · rw [hbreak]
      exact .piece h (.inr ⟨rfl, rfl⟩) hrest
    · exact .piece h (.inl rfl) hrest

theorem inner_of_longestRun_le {run : Nat} (hrun : longestRun '\'' run cs ≤ 2)
    (hcs : ∀ c ∈ cs, c = '\n' ∨ isPlain c = true) :
    Inner '\'' LiteralPiece (List.replicate run '\'' ++ cs) (List.replicate run '\'' ++ cs) := by
  induction cs generalizing run with
  | nil =>
    rw [List.append_nil]
    exact .last hrun
  | cons c cs ih =>
    rw [List.forall_mem_cons] at hcs
    rw [longestRun] at hrun
    split_ifs at hrun with hquote
    · have hnext := ih hrun hcs.2
      rw [List.replicate_succ', List.append_assoc] at hnext
      rwa [hquote]
    · have hrest := ih (le_trans (le_max_right _ _) hrun) hcs.2
      exact .piece (le_trans (le_max_left _ _) hrun) ⟨rfl, hquote, hcs.1⟩ hrest

def isBreak (c : Char) : Bool := c == '\r' || c == '\n'

theorem dropLineBreak_eq_self (h : StopsAt isBreak cs) : dropLineBreak cs = cs := by
  unfold dropLineBreak
  split
  · exact absurd rfl (h.ne_cons rfl _)
  · exact absurd rfl (h.ne_cons rfl _)
  · rfl

theorem dropLineBreak_openingBreak_append {body : List Char}
    (h : '\n' ∉ cs → StopsAt isBreak body) : dropLineBreak (openingBreak cs ++ body) = body := by
  unfold openingBreak
  split_ifs with hbreak
  · rfl
  · exact dropLineBreak_eq_self (h hbreak)

theorem stopsAt_escapeLong (hbreak : '\n' ∉ cs) (rest : List Char) :
    StopsAt isBreak (escapeLong 0 cs ++ '"' :: rest) := by
  cases cs with
  | nil => exact stopsAt_cons rfl
  | cons c cs =>
    rw [List.mem_cons, not_or] at hbreak
    obtain ⟨d, ds, h, -, hr, hn⟩ := exists_escape_eq c
    rw [escapeLong]
    split_ifs with hquote hfew hc
    · exact stopsAt_cons rfl
    · exact absurd (by decide) hfew
    · exact absurd hc.symm hbreak.1
    · rw [h]
      exact stopsAt_cons (by simp [isBreak, hr, hn])

theorem stopsAt_of_all_isPlain (hcs : ∀ c ∈ cs, c = '\n' ∨ isPlain c = true) (hbreak : '\n' ∉ cs)
    (rest : List Char) : StopsAt isBreak (cs ++ '\'' :: rest) := by
  cases cs with
  | nil => exact stopsAt_cons rfl
  | cons c cs =>
    rw [List.mem_cons, not_or] at hbreak
    rcases hcs c List.mem_cons_self with hc | hplain
    · exact absurd hc.symm hbreak.1
    · have hr : c ≠ '\r' := ne_of_kind hplain (by decide)
      have hn : c ≠ '\n' := ne_of_kind hplain (by decide)
      exact stopsAt_cons (by simp [isBreak, hr, hn])

end SeveralLines

section Forms

def isQuote (c : Char) : Bool := c == '"' || c == '\''

theorem stopsAt_of_isQuote (h : StopsAt isQuote rest) (hq : isQuote q = true) :
    StopsAt (· == q) rest :=
  fun c hc => beq_eq_false_iff_ne.mpr (ne_of_kind hq (h c hc)).symm

theorem scanString_basic (cs : List Char) (hrest : StopsAt isQuote rest) :
    scanString (TextForm.basic.write cs ++ rest) = some (cs, rest) := by
  have hwrite : TextForm.basic.write cs ++ rest = '"' :: (cs.flatMap escape ++ '"' :: rest) := by
    simp [TextForm.write]
  have hscan := scanBasic_flatMap_escape cs rest
  rw [hwrite]
  cases cs with
  | nil =>
    rw [List.flatMap_nil, List.nil_append, scanString]
    · exact hscan
    · rintro more ⟨⟩
      cases hrest '"' rfl
  | cons c cs =>
    obtain ⟨d, ds, h, hd, -⟩ := exists_escape_eq c
    rw [List.flatMap_cons, h] at hscan ⊢
    rw [List.cons_append, List.cons_append, scanString]
    · exact hscan
    · exact fun more hmore => hd (List.cons.inj hmore).1

theorem scanString_literal (hcs : ∀ c ∈ cs, isPlain c = true ∧ c ≠ '\'') (hne : cs ≠ [])
    (rest : List Char) : scanString (TextForm.literal.write cs ++ rest) = some (cs, rest) := by
  have hscan := scanLiteral_append hcs rest
  obtain ⟨c, cs, rfl⟩ := List.exists_cons_of_ne_nil hne
  have hwrite : TextForm.literal.write (c :: cs) ++ rest = '\'' :: (c :: cs ++ '\'' :: rest) := by
    simp [TextForm.write]
  rw [hwrite, List.cons_append, scanString]
  · exact hscan
  · exact fun more hmore => (hcs c List.mem_cons_self).2 (List.cons.inj hmore).1

theorem scanString_longBasic (cs : List Char) (hrest : StopsAt isQuote rest) :
    scanString (TextForm.longBasic.write cs ++ rest) = some (cs, rest) := by
  have hwrite : TextForm.longBasic.write cs ++ rest = '"' :: '"' :: '"' ::
      (openingBreak cs ++ (escapeLong 0 cs ++ '"' :: '"' :: '"' :: rest)) := by
    simp [TextForm.write]
  rw [hwrite, scanString,
    dropLineBreak_openingBreak_append fun hbreak => stopsAt_escapeLong hbreak _]
  have hinner := inner_escapeLong cs (Nat.zero_le 2)
  exact hinner.scan_eq splits_scanLongBasic (stopsAt_of_isQuote hrest rfl)

theorem scanString_longLiteral (hcs : ∀ c ∈ cs, c = '\n' ∨ isPlain c = true)
    (hrun : longestRun '\'' 0 cs ≤ 2) (hrest : StopsAt isQuote rest) :
    scanString (TextForm.longLiteral.write cs ++ rest) = some (cs, rest) := by
  have hwrite : TextForm.longLiteral.write cs ++ rest = '\'' :: '\'' :: '\'' ::
      (openingBreak cs ++ (cs ++ '\'' :: '\'' :: '\'' :: rest)) := by
    simp [TextForm.write]
  rw [hwrite, scanString,
    dropLineBreak_openingBreak_append fun hbreak => stopsAt_of_all_isPlain hcs hbreak _]
  have hinner := inner_of_longestRun_le hrun hcs
  exact hinner.scan_eq splits_scanLongLiteral (stopsAt_of_isQuote hrest rfl)

theorem TextForm.of_cases (cs : List Char) :
    (TextForm.of cs).suits cs = true ∨ TextForm.of cs = .basic ∨ TextForm.of cs = .longBasic := by
  unfold TextForm.of
  dsimp only
  cases h : [TextForm.basic, .literal, .longBasic, .longLiteral].find? (suits cs) with
  | some form =>
    rw [Option.getD_some]
    exact .inl (List.find?_some h)
  | none =>
    rw [Option.getD_none]
    right
    split_ifs
    · exact .inr rfl
    · exact .inl rfl

/-- A text is read back from its quoted form, unless another quote follows. -/
theorem scanString_quoted (s : String) (hrest : StopsAt isQuote rest) :
    scanString (quoted s ++ rest) = some (s.toList, rest) := by
  have hsuits := TextForm.of_cases s.toList
  have hne : TextForm.of s.toList = .literal → s.toList ≠ [] := by
    intro hform hnil
    rw [hnil] at hform
    cases hform
  rw [quoted]
  generalize TextForm.of s.toList = form at hsuits hne
  cases form with
  | basic => exact scanString_basic _ hrest
  | longBasic => exact scanString_longBasic _ hrest
  | literal =>
    have hcs : TextForm.literal.suits s.toList = true := hsuits.resolve_right (by decide)
    simp only [TextForm.suits, List.all_eq_true, Bool.and_eq_true, bne_iff_ne] at hcs
    exact scanString_literal hcs (hne rfl) rest
  | longLiteral =>
    have hcs : TextForm.longLiteral.suits s.toList = true := hsuits.resolve_right (by decide)
    simp only [TextForm.suits, Bool.and_eq_true, List.all_eq_true, Bool.or_eq_true, beq_iff_eq,
      decide_eq_true_eq] at hcs
    exact scanString_longLiteral hcs.1 hcs.2 hrest

end Forms

end Toml

end BundleTracker
