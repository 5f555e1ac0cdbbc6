import FormalLanguages.Reachability
import FormalLanguages.Regex.Basic
import FormalLanguages.Text.Pieces

namespace FormalLanguages.Regex

/-! Matching an expression against the beginning of a text leaves some rest of the
text over. All rests are found, the longest first and each once. Rests of one text
that are equally long are equal. -/

def insertRest (rest : List Char) : List (List Char) → List (List Char)
  | [] => [rest]
  | head :: tail =>
      if head.length < rest.length then rest :: head :: tail
      else if head = rest then head :: tail
      else head :: insertRest rest tail

def longestFirst (rests : List (List Char)) : List (List Char) := rests.foldr insertRest []

@[simp] theorem mem_insertRest {rest other : List Char} {rests : List (List Char)} :
    other ∈ insertRest rest rests ↔ other = rest ∨ other ∈ rests := by
  induction rests with
  | nil => simp [insertRest]
  | cons head tail induction =>
      rw [insertRest]
      split
      · exact List.mem_cons
      · split
        case isTrue same => simp [same]
        case isFalse =>
            rw [List.mem_cons, induction, List.mem_cons]
            exact or_left_comm

@[simp] theorem mem_longestFirst {rest : List Char} {rests : List (List Char)} :
    rest ∈ longestFirst rests ↔ rest ∈ rests := by
  induction rests with
  | nil => exact Iff.rfl
  | cons head tail induction =>
      rw [List.mem_cons, ← induction]
      exact mem_insertRest

/-- A star goes on with every rest that its body leaves over. There is one more
rest than the text has characters. -/
def rests : Regex → List Char → List (List Char)
  | empty, _ => []
  | nil, text => [text]
  | symbol name, text => (Text.dropLeading? name.toList text).toList
  | reference _, _ => []
  | sequence first second, text => longestFirst ((rests first text).flatMap (rests second))
  | alternative left right, text => longestFirst (rests left text ++ rests right text)
  | star body, text => longestFirst (Reachable.list (text.length + 1) (rests body) [text])

def run (regex : Regex) (input : String) : List String :=
  (rests regex input.toList).map String.ofList

def test (regex : Regex) (input : String) : Bool :=
  (rests regex input.toList).any List.isEmpty

example : run (star (symbol "a")) "aab" = ["aab", "ab", "b"] := by decide

end FormalLanguages.Regex
