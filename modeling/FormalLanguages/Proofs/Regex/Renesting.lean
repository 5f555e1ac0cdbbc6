import FormalLanguages.Proofs.Regex.Measures
import FormalLanguages.Proofs.Regex.Rereading

namespace FormalLanguages.Regex

/-! # Printed expressions come back nested to the right

Nothing in the printed text says how a sequence was nested. It is read back nested to the
right, and it prints as before. All else comes back as it was. -/

variable {regex : Regex}

/-! ## Nesting to the right -/

/-- The factors of the first expression in front of the second one. -/
def followedBy : Regex → Regex → Regex
  | sequence first second, rest => first.followedBy (second.followedBy rest)
  | factor, rest => sequence factor rest

/-- The same expression with every sequence in it nested to the right. -/
def nestRight : Regex → Regex
  | sequence first second => first.nestRight.followedBy second.nestRight
  | alternative left right => alternative left.nestRight right.nestRight
  | star body => star body.nestRight
  | atom => atom

example : nestRight (sequence (sequence (symbol "a") (symbol "b"))
      (sequence (star (sequence (sequence nil empty) nil)) (symbol "c"))) =
    sequence (symbol "a") (sequence (symbol "b")
      (sequence (star (sequence nil (sequence empty nil))) (symbol "c"))) := rfl

theorem factors_followedBy (first rest : Regex) :
    (first.followedBy rest).factors = first.factors ++ rest.factors := by
  induction first generalizing rest with
  | sequence first second inFirst inSecond =>
      rw [followedBy, inFirst, inSecond, factors, List.append_assoc]
  | _ => rfl

theorem factors_nestRight (regex : Regex) :
    regex.nestRight.factors = regex.factors.map nestRight := by
  induction regex with
  | sequence first second inFirst inSecond =>
      rw [nestRight, factors_followedBy, inFirst, inSecond, factors, List.map_append]
  | _ => rfl

theorem followedBy_catAll {regexes : List Regex} (some : regexes ≠ []) (first : Regex) :
    first.followedBy (catAll regexes) = catAll (first.factors ++ regexes) := by
  induction first generalizing regexes with
  | sequence first second inFirst inSecond =>
      have later : second.factors ++ regexes ≠ [] := List.append_ne_nil_of_right_ne_nil _ some
      rw [followedBy, inSecond some, inFirst later, factors, List.append_assoc]
  | _ => exact (catAll_cons some _).symm

/-- What is nested to the right is put together from its factors. -/
theorem nestRight_eq_catAll (regex : Regex) :
    regex.nestRight = catAll (regex.factors.map nestRight) := by
  induction regex with
  | sequence first second _ inSecond =>
      have some : second.factors.map nestRight ≠ [] :=
        mt List.map_eq_nil_iff.mp (factors_ne_nil second)
      rw [nestRight, inSecond, followedBy_catAll some, factors_nestRight, factors, List.map_append]
  | _ => rfl

/-! ## Printing -/

theorem precedence_followedBy (first rest : Regex) : precedence (first.followedBy rest) = 2 := by
  induction first generalizing rest with
  | sequence first second inFirst _ => exact inFirst _
  | _ => rfl

/-- A sequence needs no parentheses in a sequence. -/
theorem print_followedBy (first rest : Regex) :
    (first.followedBy rest).print = (sequence first rest).print := by
  induction first generalizing rest with
  | sequence first second inFirst inSecond =>
      have bare (text : String) : parenthesised (2 < 2) text = text := rfl
      rw [followedBy, inFirst, print, precedence_followedBy, inSecond, bare, print, print, print]
      exact (String.append_assoc ..).symm
  | _ => rfl

theorem precedence_nestRight (regex : Regex) : precedence regex.nestRight = precedence regex := by
  cases regex with
  | sequence first second => exact precedence_followedBy _ _
  | _ => rfl

theorem print_nestRight (regex : Regex) : regex.nestRight.print = regex.print := by
  induction regex with
  | sequence first second inFirst inSecond =>
      rw [nestRight, print_followedBy, print, print, inFirst, inSecond, precedence_nestRight,
        precedence_nestRight]
  | alternative left right inLeft inRight =>
      rw [nestRight, print, print, inLeft, inRight, precedence_nestRight, precedence_nestRight]
  | star body inBody => rw [nestRight, print, print, inBody, precedence_nestRight]
  | _ => rfl

/-! ## Reading -/

/-- Every symbol is one letter, and every reference is a letter with subscripts. -/
def Lettered : Regex → Prop
  | empty => True
  | nil => True
  | symbol name => ∃ letter, IsLetter letter ∧ name = String.ofList [letter]
  | reference name => ∃ letter digits, IsLetter letter ∧ digits ≠ [] ∧
      (∀ digit, digit ∈ digits → Name.isSubscript digit = true) ∧
      name = String.ofList (letter :: digits)
  | sequence first second => Lettered first ∧ Lettered second
  | alternative left right => Lettered left ∧ Lettered right
  | star body => Lettered body

theorem Lettered.legible (lettered : regex.Lettered) : regex.Legible := by
  induction regex with
  | empty | nil => trivial
  | symbol name =>
      rcases lettered with ⟨letter, isLetter, rfl⟩
      refine ⟨by simp, fun character inside => ?_⟩
      have same : character = letter := by simpa using inside
      exact same ▸ isLetter
  | reference name =>
      rcases lettered with ⟨letter, digits, isLetter, some, subscripts, rfl⟩
      exact ⟨⟨letter, digits⟩, String.toList_ofList.symm, isLetter, some, subscripts⟩
  | sequence first second inFirst inSecond =>
      exact ⟨inFirst lettered.1, inSecond lettered.2⟩
  | alternative left right inLeft inRight =>
      exact ⟨inLeft lettered.1, inRight lettered.2⟩
  | star body inBody => exact inBody lettered

/-- What stands in front of a star without parentheses is no sequence. -/
theorem factors_eq_self_of_precedence (tight : ¬ precedence regex < 3) :
    regex.factors = [regex] := by
  cases regex with
  | sequence first second => exact absurd (Nat.lt_succ_self 2) tight
  | _ => rfl

theorem Lettered.readBack_eq (lettered : regex.Lettered) :
    regex.readBack = regex.factors.map nestRight := by
  induction regex with
  | empty | nil | reference _ => rfl
  | symbol name =>
      rcases lettered with ⟨letter, _, rfl⟩
      rw [readBack, String.toList_ofList]
      rfl
  | sequence first second inFirst inSecond =>
      rw [readBack, inFirst lettered.1, inSecond lettered.2, factors, List.map_append]
  | alternative left right inLeft inRight =>
      rw [readBack, inLeft lettered.1, inRight lettered.2, ← nestRight_eq_catAll,
        ← nestRight_eq_catAll]
      rfl
  | star body inBody =>
      rw [readBack, inBody lettered]
      split
      case isTrue =>
        rw [← nestRight_eq_catAll]
        rfl
      case isFalse tight =>
        rw [factors_eq_self_of_precedence tight]
        rfl

/-- A printed expression comes back with its sequences nested to the right and everything else
as it was, and it prints as before. -/
theorem reread_printed_regex (lettered : regex.Lettered) :
    parse regex.print = .ok regex.nestRight ∧ regex.nestRight.print = regex.print := by
  refine ⟨?_, print_nestRight regex⟩
  rw [lettered.legible.parse_print, lettered.readBack_eq, ← nestRight_eq_catAll]

/-- Alternatives within alternatives on both sides, a sequence on the left of a sequence, and a
reference next to a symbol. -/
def crowded : Regex :=
  sequence
    (sequence (symbol "a") (reference "b₁₂"))
    (alternative (alternative (symbol "c") nil)
      (alternative (star (sequence (sequence (symbol "a") (symbol "b")) (star (symbol "c"))))
        empty))

theorem reread_printed_regex_crowded :
    crowded.Lettered ∧ crowded.print = "ab₁₂(c + ε + ((abc*)* + ∅))" ∧
      parse crowded.print = .ok crowded.nestRight ∧ crowded.nestRight.print = crowded.print ∧
      crowded.nestRight ≠ crowded := by
  have letter : ∀ character, character ∈ ['a', 'b', 'c'] → IsLetter character := by
    intro character listed
    simp only [List.mem_cons, List.not_mem_nil, or_false] at listed
    rcases listed with rfl | rfl | rfl <;> exact ⟨by decide, by decide, by decide⟩
  have named : ∀ character, character ∈ ['a', 'b', 'c'] →
      Lettered (symbol (String.ofList [character])) :=
    fun character listed => ⟨character, letter character listed, rfl⟩
  have referred : Lettered (reference "b₁₂") :=
    ⟨'b', ['₁', '₂'], letter 'b' (by decide), by decide, by decide, rfl⟩
  have lettered : crowded.Lettered :=
    ⟨⟨named 'a' (by decide), referred⟩, ⟨named 'c' (by decide), trivial⟩,
      ⟨⟨named 'a' (by decide), named 'b' (by decide)⟩, named 'c' (by decide)⟩, trivial⟩
  rcases reread_printed_regex lettered with ⟨read, printed⟩
  exact ⟨lettered, by decide, read, printed, by decide⟩

end FormalLanguages.Regex
