import FormalLanguages.Text.Chunks
import FormalLanguages.Text.Pieces
import Mathlib.Data.List.Basic

namespace FormalLanguages.Text

/-! # What is joined comes apart again

Cutting a text gives back the pieces that it was joined from, as long as no piece holds
what the text is cut at. -/

variable {isSeparator : Char → Bool} {separator : Char}

/-- The characters of the text are looked at, not all characters that there are. -/
instance decidableForallCharacters {holds : Char → Prop} [DecidablePred holds] (text : List Char) :
    Decidable (∀ character, character ∈ text → holds character) :=
  List.decidableBAll holds text

/-! ## Joining -/

theorem toList_joined (between : String) (pieces : List String) :
    (joined between pieces).toList =
      List.intercalate between.toList (pieces.map String.toList) := by
  induction pieces with
  | nil => rfl
  | cons piece rest induction =>
      cases rest with
      | nil => simp [joined]
      | cons next rest =>
          rw [joined, String.toList_append, String.toList_append, induction, List.map_cons,
            List.map_cons, List.map_cons, List.intercalate_cons_cons]

theorem toList_concatenated (pieces : List String) :
    (concatenated pieces).toList = pieces.flatMap String.toList := by
  rw [concatenated, toList_joined, List.flatMap_def, String.toList_empty]
  induction pieces with
  | nil => rfl
  | cons piece rest induction =>
      cases rest with
      | nil => simp
      | cons next rest =>
          rw [List.map_cons, List.map_cons, List.intercalate_cons_cons, List.append_nil,
            ← List.map_cons, induction, List.flatten_cons]

theorem mem_intercalate {between : List Char} {pieces : List (List Char)} {character : Char}
    (inside : character ∈ List.intercalate between pieces) :
    character ∈ between ∨ ∃ piece, piece ∈ pieces ∧ character ∈ piece := by
  induction pieces with
  | nil => cases inside
  | cons piece rest induction =>
      cases rest with
      | nil =>
          rw [List.intercalate_singleton] at inside
          exact .inr ⟨piece, List.mem_cons_self, inside⟩
      | cons next rest =>
          rw [List.intercalate_cons_cons, List.mem_append, List.mem_append] at inside
          rcases inside with (own | separates) | later
          · exact .inr ⟨piece, List.mem_cons_self, own⟩
          · exact .inl separates
          · exact (induction later).imp_right fun ⟨other, member, own⟩ =>
              ⟨other, List.mem_cons_of_mem _ member, own⟩

/-! ## Cutting -/

theorem splitWhere_intercalate (separates : isSeparator separator = true)
    {pieces : List (List Char)} (nonempty : pieces ≠ [])
    (whole : ∀ piece, piece ∈ pieces → ∀ character, character ∈ piece →
      isSeparator character = false) :
    splitWhere isSeparator (List.intercalate [separator] pieces) = pieces := by
  induction pieces with
  | nil => exact absurd rfl nonempty
  | cons piece rest induction =>
      have first := splitWhere_eq_singleton (whole piece List.mem_cons_self)
      cases rest with
      | nil => rw [List.intercalate_singleton, first]
      | cons next rest =>
          have later := induction (List.cons_ne_nil _ _) fun other inRest =>
            whole other (List.mem_cons_of_mem _ inRest)
          rw [List.intercalate_cons_cons, List.append_assoc, List.singleton_append,
            splitWhere_append_separator separates, first, later, List.singleton_append]

/-- Where every piece is closed by a separator, nothing stands after the last one. -/
theorem splitWhere_flatMap (separates : isSeparator separator = true) {pieces : List (List Char)}
    (whole : ∀ piece, piece ∈ pieces → ∀ character, character ∈ piece →
      isSeparator character = false) :
    splitWhere isSeparator (pieces.flatMap (· ++ [separator])) = pieces ++ [[]] := by
  induction pieces with
  | nil => rfl
  | cons piece rest induction =>
      have later := induction fun other inRest => whole other (List.mem_cons_of_mem _ inRest)
      rw [List.flatMap_cons, List.append_assoc, List.singleton_append,
        splitWhere_append_separator separates,
        splitWhere_eq_singleton (whole piece List.mem_cons_self), later]
      rfl

theorem mem_of_mem_splitWhere {text piece : List Char} (member : piece ∈ splitWhere isSeparator text)
    {character : Char} (inside : character ∈ piece) : character ∈ text := by
  induction text generalizing piece with
  | nil =>
      rw [splitWhere, List.mem_singleton] at member
      exact absurd (member ▸ inside) List.not_mem_nil
  | cons head tail induction =>
      rw [splitWhere] at member
      split at member
      case isTrue =>
        rcases List.mem_cons.mp member with equal | later
        · exact absurd (equal ▸ inside) List.not_mem_nil
        · exact List.mem_cons_of_mem _ (induction later inside)
      case isFalse =>
        cases pieces : splitWhere isSeparator tail with
        | nil => exact absurd pieces (splitWhere_ne_nil isSeparator tail)
        | cons first rest =>
            simp only [pieces, List.mem_cons] at member induction
            rcases member with equal | later
            · rcases List.mem_cons.mp (equal ▸ inside) with same | inFirst
              · exact same ▸ List.mem_cons_self
              · exact List.mem_cons_of_mem _ (induction (.inl rfl) inFirst)
            · exact List.mem_cons_of_mem _ (induction (.inr later) inside)

/-- A text is cut at the first mark. -/
theorem cutAt?_singleton {mark : Char} {before : List Char} (free : mark ∉ before)
    (after : List Char) : cutAt? [mark] (before ++ mark :: after) = some (before, after) := by
  induction before with
  | nil => simp [cutAt?, dropLeading?]
  | cons head tail induction =>
      rcases not_or.mp (List.mem_cons.not.mp free) with ⟨different, rest⟩
      simp [cutAt?, dropLeading?, different, induction rest]

/-! ## Lines -/

theorem map_snd_numberedLines (clean : List Char → List Char) (text : String) :
    (numberedLines clean text).map Prod.snd =
      ((lines text.toList).map clean).filter fun line => !line.isEmpty := by
  have numbers : ∀ cleaned : List (List Char),
      ((List.range' 1 cleaned.length).zip cleaned).map Prod.snd = cleaned :=
    fun cleaned => List.map_snd_zip (Nat.le_of_eq List.length_range'.symm)
  rw [numberedLines]
  conv => rhs; rw [← numbers ((lines text.toList).map clean), List.filter_map]
  rfl

/-- A line that is left empty does not count. -/
theorem numberedLines_append_newline {clean : List Char → List Char} (nothing : clean [] = [])
    (text : String) : numberedLines clean (text ++ "\n") = numberedLines clean text := by
  have cut : lines (text ++ "\n").toList = lines text.toList ++ [[]] := by
    rw [String.toList_append]
    exact splitWhere_append_separator (decide_eq_true rfl) text.toList []
  rw [numberedLines, cut, List.map_append, List.length_append, List.map_singleton, nothing,
    List.length_singleton, List.range'_concat, List.zip_append List.length_range',
    List.filter_append]
  exact List.append_nil _

/-! ## Blanks -/

theorem not_isBlank_of_mem_withoutBlanks {text : List Char} {character : Char}
    (member : character ∈ withoutBlanks text) : isBlank character = false := by
  simpa using (List.mem_filter.mp member).2

theorem withoutBlanks_eq_self {text : List Char}
    (solid : ∀ character, character ∈ text → isBlank character = false) :
    withoutBlanks text = text :=
  List.filter_eq_self.mpr fun character member => by rw [solid character member]; rfl

theorem mem_of_mem_trim {text : List Char} {character : Char} (inside : character ∈ trim text) :
    character ∈ text := by
  rw [trim, trimEnd, List.mem_reverse] at inside
  have started := List.mem_reverse.mp ((List.dropWhile_sublist _).mem inside)
  exact (List.dropWhile_sublist _).mem started

theorem trimStart_eq_self {head : Char} (solid : isBlank head = false) (tail : List Char) :
    trimStart (head :: tail) = head :: tail :=
  List.dropWhile_cons_of_neg (by rw [solid]; exact Bool.false_ne_true)

theorem trimEnd_concat {last : Char} (solid : isBlank last = false) (before : List Char) :
    trimEnd (before ++ [last]) = before ++ [last] := by
  rw [trimEnd, List.reverse_append, List.reverse_singleton, List.singleton_append,
    List.dropWhile_cons_of_neg (by rw [solid]; exact Bool.false_ne_true), List.reverse_cons,
    List.reverse_reverse]

/-- Trimming leaves a text alone that neither begins nor ends in a blank. -/
theorem trim_eq_self {text : List Char}
    (solid : ∀ character, character ∈ text → isBlank character = false) : trim text = text := by
  cases text with
  | nil => rfl
  | cons head tail =>
      have last := solid _ (List.getLast_mem (List.cons_ne_nil head tail))
      rw [trim, trimStart_eq_self (solid head List.mem_cons_self),
        ← List.dropLast_append_getLast (List.cons_ne_nil head tail), trimEnd_concat last]

/-! ## Chunks -/

section Chunks

variable {isMark : Char → Bool}

/-- The head of a chunk is no mark, and all that follows it is one. -/
def Chunk.Proper (isMark : Char → Bool) (chunk : Chunk) : Prop :=
  isMark chunk.head = false ∧ ∀ mark, mark ∈ chunk.marks → isMark mark = true

theorem proper_chunks (text : List Char) :
    (∀ mark, mark ∈ (chunks isMark text).strayMarks → isMark mark = true) ∧
      ∀ chunk, chunk ∈ (chunks isMark text).chunks → chunk.Proper isMark := by
  induction text with
  | nil => simp [chunks]
  | cons head tail induction =>
      simp only [chunks]
      split
      case isTrue mark => exact ⟨List.forall_mem_cons.mpr ⟨mark, induction.1⟩, induction.2⟩
      case isFalse notMark =>
        refine ⟨fun _ none => absurd none List.not_mem_nil, ?_⟩
        exact List.forall_mem_cons.mpr ⟨⟨Bool.eq_false_iff.mpr notMark, induction.1⟩, induction.2⟩

theorem mem_of_mem_chunks {text : List Char} {chunk : Chunk}
    (member : chunk ∈ (chunks isMark text).chunks) {character : Char}
    (inside : character ∈ chunk.text) : character ∈ text := by
  rw [← text_chunks isMark text]
  exact List.mem_append_right _ (List.mem_flatMap.mpr ⟨chunk, member, inside⟩)

theorem chunks_append_marks {marks rest : List Char}
    (all : ∀ mark, mark ∈ marks → isMark mark = true) :
    chunks isMark (marks ++ rest) =
      ⟨marks ++ (chunks isMark rest).strayMarks, (chunks isMark rest).chunks⟩ := by
  induction marks with
  | nil => rfl
  | cons mark marks induction =>
      rcases List.forall_mem_cons.mp all with ⟨isMark, later⟩
      rw [List.cons_append, chunks, induction later]
      exact if_pos isMark

/-- A text that is put together from chunks is cut into just these chunks. -/
theorem chunks_flatMap_text {cut : List Chunk}
    (proper : ∀ chunk, chunk ∈ cut → chunk.Proper isMark) :
    chunks isMark (cut.flatMap Chunk.text) = ⟨[], cut⟩ := by
  induction cut with
  | nil => rfl
  | cons chunk rest induction =>
      rcases List.forall_mem_cons.mp proper with ⟨⟨head, marks⟩, later⟩
      rw [List.flatMap_cons, Chunk.text, List.cons_append, chunks, chunks_append_marks marks,
        induction later, List.append_nil]
      exact if_neg (Bool.eq_false_iff.mp head)

end Chunks

end FormalLanguages.Text
