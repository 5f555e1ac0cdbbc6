import FormalLanguages.Text.Blank

namespace FormalLanguages.Text

/-! Cutting text at separators, and joining pieces again. A separator between two
pieces belongs to neither, and a text without separators is one piece. -/

def splitWhere (isSeparator : Char → Bool) : List Char → List (List Char)
  | [] => [[]]
  | head :: tail =>
      if isSeparator head then
        [] :: splitWhere isSeparator tail
      else
        match splitWhere isSeparator tail with
        | [] => [[head]]
        | first :: rest => (head :: first) :: rest

theorem splitWhere_ne_nil (isSeparator : Char → Bool) (text : List Char) :
    splitWhere isSeparator text ≠ [] := by
  cases text with
  | nil => exact List.cons_ne_nil _ _
  | cons head tail =>
      rw [splitWhere]
      split
      · exact List.cons_ne_nil _ _
      · split <;> exact List.cons_ne_nil _ _

theorem not_separator_of_mem_splitWhere {isSeparator : Char → Bool} {text piece : List Char}
    (member : piece ∈ splitWhere isSeparator text) {character : Char} (inside : character ∈ piece) :
    isSeparator character = false := by
  induction text generalizing piece with
  | nil =>
      rw [splitWhere, List.mem_singleton] at member
      exact absurd (member ▸ inside) List.not_mem_nil
  | cons head tail induction =>
      rw [splitWhere] at member
      split at member
      case isTrue =>
          rcases List.mem_cons.mp member with equal | later
          · exact absurd (equal ▸ inside) List.not_mem_nil
          · exact induction later inside
      case isFalse kept =>
          cases pieces : splitWhere isSeparator tail with
          | nil => exact absurd pieces (splitWhere_ne_nil isSeparator tail)
          | cons first rest =>
              simp only [pieces, List.mem_cons] at member induction
              rcases member with equal | later
              · rw [equal] at inside
                rcases List.mem_cons.mp inside with same | inFirst
                · exact same ▸ Bool.eq_false_iff.mpr kept
                · exact induction (.inl rfl) inFirst
              · exact induction (.inr later) inside

/-- A separator parts what stands before it from what stands after it. -/
theorem splitWhere_append_separator {isSeparator : Char → Bool} {separator : Char}
    (separates : isSeparator separator = true) (before after : List Char) :
    splitWhere isSeparator (before ++ separator :: after) =
      splitWhere isSeparator before ++ splitWhere isSeparator after := by
  induction before with
  | nil => simp [splitWhere, separates]
  | cons head tail induction =>
      rw [List.cons_append, splitWhere, splitWhere, induction]
      split
      · rfl
      · cases pieces : splitWhere isSeparator tail with
        | nil => exact absurd pieces (splitWhere_ne_nil isSeparator tail)
        | cons first rest => rfl

theorem splitWhere_eq_singleton {isSeparator : Char → Bool} {text : List Char}
    (whole : ∀ character, character ∈ text → isSeparator character = false) :
    splitWhere isSeparator text = [text] := by
  induction text with
  | nil => rfl
  | cons head tail induction =>
      have rest := induction fun character member => whole character (List.mem_cons_of_mem _ member)
      simp [splitWhere, rest, whole head List.mem_cons_self]

def lines (text : List Char) : List (List Char) := splitWhere (· = '\n') text

def nonEmptyPieces (isSeparator : Char → Bool) (text : List Char) : List (List Char) :=
  (splitWhere isSeparator text).filter fun piece => !piece.isEmpty

def words (text : List Char) : List (List Char) := nonEmptyPieces isBlank text

/-- Lines are numbered from one. What is left of a line once it has been cleaned
may be nothing, and then the line is skipped. -/
def numberedLines (clean : List Char → List Char) (text : String) : List (Nat × List Char) :=
  let cleaned := (lines text.toList).map clean
  ((List.range' 1 cleaned.length).zip cleaned).filter fun numbered => !numbered.2.isEmpty

def onLine (line : Nat) (message : String) : String := "Line " ++ toString line ++ ": " ++ message

example : words " a  bc ".toList = ["a".toList, "bc".toList] := by decide

/-! `dropLeading? mark text` is what follows `mark` at the beginning of `text`,
and `cutAt? mark text` is what stands before and after its first occurrence. -/

def dropLeading? : (mark text : List Char) → Option (List Char)
  | [], text => some text
  | _ :: _, [] => none
  | expected :: mark, head :: text => if expected = head then dropLeading? mark text else none

theorem dropLeading?_eq_some_iff {mark text rest : List Char} :
    dropLeading? mark text = some rest ↔ text = mark ++ rest := by
  induction mark generalizing text with
  | nil => simp [dropLeading?, eq_comm]
  | cons expected mark induction =>
      cases text with
      | nil => simp [dropLeading?]
      | cons head text =>
          by_cases equal : expected = head
          · simp [dropLeading?, equal, induction]
          · have different : head ≠ expected := fun same => equal same.symm
            simp [dropLeading?, equal, different]

def cutAt? (mark : List Char) : List Char → Option (List Char × List Char)
  | [] => (dropLeading? mark []).map fun rest => ([], rest)
  | head :: tail =>
      match dropLeading? mark (head :: tail) with
      | some rest => some ([], rest)
      | none => (cutAt? mark tail).map fun (before, after) => (head :: before, after)

def joined (separator : String) : List String → String
  | [] => ""
  | [piece] => piece
  | piece :: next :: rest => piece ++ separator ++ joined separator (next :: rest)

def concatenated (pieces : List String) : String := joined "" pieces

/-- A list as an English sentence has it. -/
def naturalList : List String → String
  | [] => ""
  | [item] => item
  | [first, second] => first ++ " and " ++ second
  | items => joined ", " items.dropLast ++ ", and " ++ items.getLastD ""

example : naturalList ["A", "B", "C"] = "A, B, and C" := by decide

/-! Columns are padded with spaces up to a number of characters. -/

def padded (width : Nat) (text : String) : String :=
  text ++ String.ofList (List.replicate (width - text.length) ' ')

def widest (texts : List String) : Nat := texts.foldl (fun width text => max width text.length) 0

example : padded 3 "a" = "a  " := by decide

end FormalLanguages.Text
