import FormalLanguages.Proofs.Text.Pieces

namespace FormalLanguages.Text

/-! # Cells with blanks between them

Cells that are padded and joined with blanks can be told apart again, and trimming takes away
only what stands before the first of them and after the last. -/

variable {isSeparator : Char → Bool} {before text pad cell : List Char}
  {cells : List (List Char)}

/-! ## Pieces that are not empty -/

/-- Separators part pieces, and what they part may be looked at by itself. -/
theorem nonEmptyPieces_append_separator {separator : Char}
    (separates : isSeparator separator = true) (before after : List Char) :
    nonEmptyPieces isSeparator (before ++ separator :: after) =
      nonEmptyPieces isSeparator before ++ nonEmptyPieces isSeparator after := by
  rw [nonEmptyPieces, splitWhere_append_separator separates, List.filter_append]
  rfl

theorem nonEmptyPieces_append_separators
    (separate : ∀ character, character ∈ pad → isSeparator character = true)
    (after : List Char) :
    nonEmptyPieces isSeparator (pad ++ after) = nonEmptyPieces isSeparator after := by
  induction pad with
  | nil => rfl
  | cons head tail induction =>
      rcases List.forall_mem_cons.mp separate with ⟨first, later⟩
      have parted := nonEmptyPieces_append_separator first [] (tail ++ after)
      exact parted.trans (induction later)

theorem nonEmptyPieces_eq_singleton (filled : text ≠ [])
    (whole : ∀ character, character ∈ text → isSeparator character = false) :
    nonEmptyPieces isSeparator text = [text] := by
  rw [nonEmptyPieces, splitWhere_eq_singleton whole]
  exact List.filter_eq_self.mpr fun piece only => by
    rw [List.mem_singleton.mp only]
    simpa using filled

theorem nonEmptyPieces_cons {separator : Char} (filled : text ≠ [])
    (whole : ∀ character, character ∈ text → isSeparator character = false)
    (separates : isSeparator separator = true) (after : List Char) :
    nonEmptyPieces isSeparator (text ++ separator :: after) =
      text :: nonEmptyPieces isSeparator after := by
  rw [nonEmptyPieces_append_separator separates, nonEmptyPieces_eq_singleton filled whole,
    List.singleton_append]

theorem nonEmptyPieces_intercalate {between : List Char} (some : between ≠ [])
    (separate : ∀ character, character ∈ between → isSeparator character = true)
    {pieces : List (List Char)}
    (whole : ∀ piece, piece ∈ pieces → piece ≠ [] ∧ ∀ character, character ∈ piece →
      isSeparator character = false) :
    nonEmptyPieces isSeparator (List.intercalate between pieces) = pieces := by
  rcases List.exists_cons_of_ne_nil some with ⟨separator, others, rfl⟩
  rcases List.forall_mem_cons.mp separate with ⟨separates, later⟩
  induction pieces with
  | nil => rfl
  | cons piece rest induction =>
      rcases List.forall_mem_cons.mp whole with ⟨⟨filled, solid⟩, wholeRest⟩
      cases rest with
      | nil => rw [List.intercalate_singleton, nonEmptyPieces_eq_singleton filled solid]
      | cons next rest =>
          rw [List.intercalate_cons_cons, List.append_assoc, List.cons_append,
            nonEmptyPieces_cons filled solid separates, nonEmptyPieces_append_separators later,
            induction wholeRest]

/-! ## Trimming -/

/-- The text ends in a character that is not blank. -/
def EndsSolid (text : List Char) : Prop :=
  ∃ before last, text = before ++ [last] ∧ isBlank last = false

theorem EndsSolid.append (ends : EndsSolid text) (before : List Char) :
    EndsSolid (before ++ text) := by
  rcases ends with ⟨part, last, rfl, solid⟩
  exact ⟨before ++ part, last, (List.append_assoc ..).symm, solid⟩

theorem EndsSolid.of_append (ends : EndsSolid (before ++ text)) (some : text ≠ []) :
    EndsSolid text := by
  rcases ends with ⟨part, last, whole, solid⟩
  have cut := List.dropLast_append_getLast some
  rw [← cut, ← List.append_assoc] at whole
  have same : text.getLast some = last :=
    (List.cons.inj (List.append_inj' whole rfl).2).1
  exact ⟨_, _, cut.symm, same ▸ solid⟩

theorem EndsSolid.ne_nil (ends : EndsSolid text) : text ≠ [] := by
  rcases ends with ⟨part, last, rfl, _⟩
  simp

theorem endsSolid_of_solid (filled : text ≠ [])
    (solid : ∀ character, character ∈ text → isBlank character = false) : EndsSolid text :=
  ⟨text.dropLast, text.getLast filled, (List.dropLast_append_getLast filled).symm,
    solid _ (List.getLast_mem filled)⟩

theorem trimEnd_append_blank (ends : EndsSolid text)
    (blank : ∀ character, character ∈ pad → isBlank character = true) :
    trimEnd (text ++ pad) = text := by
  rcases ends with ⟨part, last, rfl, solid⟩
  have dropped : ∀ character, character ∈ pad.reverse → isBlank character = true :=
    fun character inside => blank character (List.mem_reverse.mp inside)
  rw [trimEnd, List.reverse_append, List.dropWhile_append_of_pos dropped]
  exact trimEnd_concat solid part

theorem trimStart_append_blank (blank : ∀ character, character ∈ pad → isBlank character = true)
    (text : List Char) : trimStart (pad ++ text) = trimStart text :=
  List.dropWhile_append_of_pos blank

theorem trim_eq_of_ends {head : Char} {tail : List Char} (solid : isBlank head = false)
    (ends : EndsSolid (head :: tail)) : trim (head :: tail) = head :: tail := by
  rcases ends with ⟨before, last, whole, solidLast⟩
  rw [trim, trimStart_eq_self solid, whole, trimEnd_concat solidLast]

/-! ## Where a piece ends -/

/-- Nothing follows, or a blank does. -/
def BeginsBlank (text : List Char) : Prop :=
  ∀ head tail, text = head :: tail → isBlank head = true

section BeginsBlank

variable {keeps : Char → Bool} {piece : List Char} (begins : BeginsBlank text)
  (stops : ∀ character, isBlank character = true → keeps character = false)

include begins stops

theorem BeginsBlank.takeWhile_append
    (all : ∀ character, character ∈ piece → keeps character = true) :
    (piece ++ text).takeWhile keeps = piece := by
  rw [List.takeWhile_append_of_pos all]
  cases text with
  | nil => exact List.append_nil piece
  | cons head tail =>
      rw [List.takeWhile_cons_of_neg (by simp [stops head (begins head tail rfl)]),
        List.append_nil]

theorem BeginsBlank.dropWhile_append
    (all : ∀ character, character ∈ piece → keeps character = true) :
    (piece ++ text).dropWhile keeps = text := by
  rw [List.dropWhile_append_of_pos all]
  cases text with
  | nil => rfl
  | cons head tail =>
      rw [List.dropWhile_cons_of_neg (by simp [stops head (begins head tail rfl)])]

end BeginsBlank

/-- A mark that is not there does not come about by what follows, unless the piece begins it
and what follows goes on with it. -/
theorem dropLeading?_append {mark piece : List Char} (absent : dropLeading? mark piece = none)
    (apart : ∀ head, text.head? = some head → ¬ piece ++ [head] <+: mark) :
    dropLeading? mark (piece ++ text) = none := by
  cases found : dropLeading? mark (piece ++ text) with
  | none => rfl
  | some after =>
      exfalso
      have present (rest : List Char) (whole : piece = mark ++ rest) : False := by
        rw [dropLeading?_eq_some_iff.mpr whole] at absent
        cases absent
      rcases List.append_eq_append_iff.mp (dropLeading?_eq_some_iff.mp found) with
        ⟨rest, whole, parts⟩ | ⟨rest, whole, _⟩
      · cases rest with
        | nil => exact present [] (by rw [whole, List.append_nil, List.append_nil])
        | cons head tail =>
            refine apart head (by rw [parts]; rfl) ⟨tail, ?_⟩
            rw [whole, List.append_assoc, List.singleton_append]
      · exact present rest whole

/-! ## Spaced cells -/

/-- Every cell stands behind blanks. -/
inductive Spaced : List (List Char) → List Char → Prop
  | nil : Spaced [] []
  | cons {gap cell text : List Char} {cells : List (List Char)} (some : gap ≠ [])
      (blank : ∀ character, character ∈ gap → isBlank character = true)
      (rest : Spaced cells text) : Spaced (cell :: cells) (gap ++ (cell ++ text))

theorem Spaced.beginsBlank (spaced : Spaced cells text) : BeginsBlank text := by
  cases spaced with
  | nil => exact nofun
  | cons some blank _ =>
      rintro head tail begins
      rcases List.exists_cons_of_ne_nil some with ⟨first, others, rfl⟩
      exact (List.cons.inj begins).1 ▸ blank first List.mem_cons_self

theorem Spaced.endsSolid (spaced : Spaced cells text) (some : cells ≠ [])
    (ends : ∀ cell, cell ∈ cells → EndsSolid cell) : EndsSolid text := by
  induction spaced with
  | nil => exact absurd rfl some
  | @cons gap cell text cells _ _ rest induction =>
      rcases List.forall_mem_cons.mp ends with ⟨own, later⟩
      cases rest with
      | nil =>
          rw [List.append_nil]
          exact own.append gap
      | cons someGap blank rest =>
          exact ((induction (List.cons_ne_nil _ _) later).append cell).append gap

theorem Spaced.words_append (spaced : Spaced cells text) (filled : cell ≠ [])
    (solid : ∀ character, character ∈ cell → isBlank character = false)
    (each : ∀ other, other ∈ cells → other ≠ [] ∧
      ∀ character, character ∈ other → isBlank character = false) :
    words (cell ++ text) = cell :: cells := by
  induction spaced generalizing cell with
  | nil => rw [List.append_nil, words, nonEmptyPieces_eq_singleton filled solid]
  | cons some blank _ induction =>
      rcases List.exists_cons_of_ne_nil some with ⟨head, tail, rfl⟩
      rcases List.forall_mem_cons.mp blank with ⟨first, later⟩
      rcases List.forall_mem_cons.mp each with ⟨own, others⟩
      rw [words, List.cons_append, nonEmptyPieces_cons filled solid first,
        nonEmptyPieces_append_separators later]
      exact congrArg _ (induction own.1 own.2 others)

/-- Cells without blanks are found again as words. -/
theorem Spaced.words_trim (spaced : Spaced cells text) (some : cells ≠ [])
    (each : ∀ other, other ∈ cells → other ≠ [] ∧
      ∀ character, character ∈ other → isBlank character = false) :
    words (trim text) = cells := by
  have ends := spaced.endsSolid some fun cell member =>
    endsSolid_of_solid (each cell member).1 (each cell member).2
  cases spaced with
  | nil => exact absurd rfl some
  | @cons gap cell rest cells _ blank spaced =>
      rcases List.forall_mem_cons.mp each with ⟨⟨filled, solid⟩, others⟩
      rcases List.exists_cons_of_ne_nil filled with ⟨head, tail, rfl⟩
      have headSolid := solid head List.mem_cons_self
      have trimmed : trim (gap ++ (head :: tail ++ rest)) = head :: tail ++ rest := by
        rw [trim, trimStart_append_blank blank]
        exact trim_eq_of_ends headSolid (ends.of_append (List.cons_ne_nil _ _))
      rw [trimmed, spaced.words_append filled solid others]

/-! ## Padding and joining -/

/-- What is padded begins with a cell and goes on with spaces. -/
def PaddedFrom (cell padded : List Char) : Prop :=
  ∃ pad, padded = cell ++ pad ∧ ∀ character, character ∈ pad → character = ' '

theorem paddedFrom_padded (width : Nat) (text : String) :
    PaddedFrom text.toList (padded width text).toList :=
  ⟨List.replicate (width - text.length) ' ',
    by rw [padded, String.toList_append, String.toList_ofList],
    fun _ inside => (List.mem_replicate.mp inside).2⟩

theorem exists_spaced {between : List Char} (some : between ≠ [])
    (blank : ∀ character, character ∈ between → isBlank character = true)
    {first firstPadded : List Char} (own : PaddedFrom first firstPadded)
    {rest restPadded : List (List Char)} (others : List.Forall₂ PaddedFrom rest restPadded) :
    ∃ text pad, List.intercalate between (firstPadded :: restPadded) = first ++ text ++ pad ∧
      Spaced rest text ∧ ∀ character, character ∈ pad → isBlank character = true := by
  have blankPad {pad : List Char} (spaces : ∀ character, character ∈ pad → character = ' ') :
      ∀ character, character ∈ pad → isBlank character = true :=
    fun character inside => spaces character inside ▸ rfl
  rcases own with ⟨ownPad, rfl, spaces⟩
  induction others generalizing first ownPad with
  | nil => exact ⟨[], ownPad, by simp, .nil, blankPad spaces⟩
  | cons next _ induction =>
      rcases next with ⟨nextPad, rfl, nextSpaces⟩
      rcases induction nextPad nextSpaces with ⟨text, pad, whole, spaced, blankEnd⟩
      have gap : ∀ character, character ∈ ownPad ++ between → isBlank character = true :=
        fun character inside => (List.mem_append.mp inside).elim (blankPad spaces character)
          (blank character)
      refine ⟨_, pad, ?_, .cons (by simp [some]) gap spaced, blankEnd⟩
      rw [List.intercalate_cons_cons, whole]
      simp only [List.append_assoc]

end FormalLanguages.Text
