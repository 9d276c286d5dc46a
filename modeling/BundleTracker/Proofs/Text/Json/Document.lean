import Mathlib.Tactic
import BundleTracker.Proofs.Text.Json.Tokens
import BundleTracker.Text.Json.Parser

/-!
# Reading compact documents

The compact text of a document is read as the same document, so different documents have different
texts. The text splits into the tokens that were written, and these are put together to the value
that they come from, in whatever lists and records it stands.
-/

namespace BundleTracker

namespace Json

open Text

variable {d done : Datum} {items : List Datum} {fields : List (String × Datum)} {name : String}
  {token : Token} {front back : List Token} {rest : List Char} {frames : List Frame}

/-- The documents whose text writes them: everything in them has a value, and their integers are
in range. -/
inductive Writable : Datum → Prop
  | scalar {d : Datum} : Scalar d → Writable d
  | list {items : List Datum} : (∀ d ∈ items, Writable d) → Writable (.list items)
  | record {fields : List (String × Datum)} : (∀ f ∈ fields, Writable f.2) →
      Writable (.record fields)

section Splitting

/-- Whether the text of some tokens splits into these tokens in front of `rest`. -/
def SplitsOff (front : List Token) (rest : List Char) : Prop :=
  tokens (front.flatMap Token.text ++ rest) = (tokens rest).map (front ++ ·)

theorem SplitsOff.nil (rest : List Char) : SplitsOff [] rest := by
  simp [SplitsOff]

theorem SplitsOff.append (hback : SplitsOff back rest)
    (hfront : SplitsOff front (back.flatMap Token.text ++ rest)) :
    SplitsOff (front ++ back) rest := by
  unfold SplitsOff at *
  rw [List.flatMap_append, List.append_assoc, hfront, hback, Option.map_map]
  simp [Function.comp_def]

theorem SplitsOff.mark (hback : SplitsOff back rest) (hmark : ∀ d, token ≠ .scalar d) :
    SplitsOff (token :: back) rest := by
  have htoken : SplitsOff [token] (back.flatMap Token.text ++ rest) := by
    rw [SplitsOff, List.flatMap_singleton]
    exact tokens_append_of_mark hmark _
  exact hback.append htoken

theorem Scalar.splitsOff (hd : Scalar d) (hrest : StopsAt isNumeric rest) :
    SplitsOff [.scalar d] rest := by
  rw [SplitsOff, List.flatMap_singleton]
  exact hd.tokens_append hrest

theorem SplitsOff.field (hback : SplitsOff back rest)
    (hvalue : SplitsOff (tokensOf d) (back.flatMap Token.text ++ rest)) (name : String) :
    SplitsOff (.scalar (.text name) :: .colon :: (tokensOf d ++ back)) rest := by
  have hcolon : SplitsOff (.colon :: (tokensOf d ++ back)) rest := (hback.append hvalue).mark nofun
  exact hcolon.append ((Scalar.text name).splitsOff (stopsAt_cons rfl))

theorem Scalar.tokensOf_eq (hd : Scalar d) : tokensOf d = [.scalar d] := by
  cases hd <;> rfl

theorem stopsAt_items (items : List Datum) (rest : List Char) :
    StopsAt isNumeric ((tokensOfItems items).flatMap Token.text ++ rest) := by
  cases items <;> exact stopsAt_cons rfl

theorem stopsAt_fields (fields : List (String × Datum)) (rest : List Char) :
    StopsAt isNumeric ((tokensOfFields fields).flatMap Token.text ++ rest) := by
  cases fields <;> exact stopsAt_cons rfl

theorem splitsOff_items
    (hitems : ∀ d ∈ items, ∀ rest, StopsAt isNumeric rest → SplitsOff (tokensOf d) rest) :
    SplitsOff (tokensOfItems items) rest := by
  induction items with
  | nil => exact (SplitsOff.nil rest).mark nofun
  | cons item items ih =>
    rw [List.forall_mem_cons] at hitems
    have hitem := hitems.1 _ (stopsAt_items items rest)
    exact ((ih hitems.2).append hitem).mark nofun

theorem splitsOff_fields
    (hfields : ∀ f ∈ fields, ∀ rest, StopsAt isNumeric rest → SplitsOff (tokensOf f.2) rest) :
    SplitsOff (tokensOfFields fields) rest := by
  induction fields with
  | nil => exact (SplitsOff.nil rest).mark nofun
  | cons f fields ih =>
    rw [List.forall_mem_cons] at hfields
    have hvalue := hfields.1 _ (stopsAt_fields fields rest)
    exact ((ih hfields.2).field hvalue f.1).mark nofun

theorem Writable.splitsOff (h : Writable d) :
    ∀ rest, StopsAt isNumeric rest → SplitsOff (tokensOf d) rest := by
  induction h with
  | scalar hd =>
    intro rest hrest
    rw [hd.tokensOf_eq]
    exact hd.splitsOff hrest
  | @list items _ ih =>
    intro rest _
    cases items with
    | nil =>
      show SplitsOff [.openList, .closeList] rest
      exact .mark (.mark (.nil rest) nofun) nofun
    | cons item items =>
      rw [List.forall_mem_cons] at ih
      have hitem := ih.1 _ (stopsAt_items items rest)
      exact ((splitsOff_items ih.2).append hitem).mark nofun
  | @record fields _ ih =>
    intro rest _
    cases fields with
    | nil =>
      show SplitsOff [.openRecord, .closeRecord] rest
      exact .mark (.mark (.nil rest) nofun) nofun
    | cons f fields =>
      rw [List.forall_mem_cons] at ih
      have hvalue := ih.1 _ (stopsAt_fields fields rest)
      exact ((splitsOff_fields ih.2).field hvalue f.1).mark nofun

end Splitting

section Building

def Builds (d : Datum) : Prop :=
  ∀ frames rest, build .value frames (tokensOf d ++ rest) = build (.separator d) frames rest

theorem Scalar.builds (hd : Scalar d) : Builds d := by
  intro frames rest
  rw [hd.tokensOf_eq]
  simp [build]

theorem build_valueOrClose (d : Datum) (frames : List Frame) (rest : List Token) :
    build .valueOrClose (.list [] :: frames) (tokensOf d ++ rest) =
      build .value (.list [] :: frames) (tokensOf d ++ rest) := by
  cases d with
  | list items => cases items <;> simp [tokensOf, build]
  | record fields => cases fields <;> simp [tokensOf, build]
  | _ => simp [tokensOf, build]

theorem build_items (hitems : ∀ d ∈ items, Builds d) (before : List Datum) (done : Datum)
    (frames : List Frame) (rest : List Token) :
    build (.separator done) (.list before :: frames) (tokensOfItems items ++ rest) =
      build (.separator (.list (before.reverse ++ done :: items))) frames rest := by
  induction items generalizing before done with
  | nil => simp [tokensOfItems, build]
  | cons item items ih =>
    rw [List.forall_mem_cons] at hitems
    simp only [tokensOfItems, List.cons_append, List.append_assoc, build]
    rw [hitems.1, ih hitems.2]
    simp

theorem build_fields (hfields : ∀ f ∈ fields, Builds f.2) (before : List (String × Datum))
    (name : String) (done : Datum) (frames : List Frame) (rest : List Token) :
    build (.separator done) (.record (some before) name :: frames) (tokensOfFields fields ++ rest) =
      build (.separator (.record (before.reverse ++ (name, done) :: fields))) frames rest := by
  induction fields generalizing before name done with
  | nil => simp [tokensOfFields, build, recordOf]
  | cons f fields ih =>
    rw [List.forall_mem_cons] at hfields
    simp only [tokensOfFields, List.cons_append, List.append_assoc, build, Option.map_some]
    rw [hfields.1, ih hfields.2]
    simp

theorem Writable.builds (h : Writable d) : Builds d := by
  induction h with
  | scalar hd => exact hd.builds
  | @list items _ ih =>
    intro frames rest
    cases items with
    | nil => simp [tokensOf, build]
    | cons item items =>
      rw [List.forall_mem_cons] at ih
      simp only [tokensOf, List.cons_append, List.append_assoc, build]
      rw [build_valueOrClose, ih.1, build_items ih.2]
      simp
  | @record fields _ ih =>
    intro frames rest
    cases fields with
    | nil => simp [tokensOf, build]
    | cons f fields =>
      rw [List.forall_mem_cons] at ih
      simp only [tokensOf, List.cons_append, List.append_assoc, build]
      rw [ih.1, build_fields ih.2]
      simp

end Building

/-- The compact text of a document is read as the document. -/
theorem read?_compact (h : Writable d) : read? (compact d) = some d := by
  have hsplit := h.splitsOff [] stopsAt_nil
  have hbuild := h.builds [] []
  rw [SplitsOff, List.append_nil, tokens_nil, Option.map_some, List.append_nil] at hsplit
  rw [List.append_nil] at hbuild
  rw [read?, compact, String.toList_ofList, hsplit, Option.bind_some, hbuild]
  simp [build]

end Json

end BundleTracker
