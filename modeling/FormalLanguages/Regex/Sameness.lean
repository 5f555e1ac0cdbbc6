import FormalLanguages.Regex.Basic

namespace FormalLanguages.Regex

/-! Two expressions are the same if they differ in the order and the nesting of
alternatives only. The operands of an alternative are matched off one by one
against those of the other. -/

def strikeFirst (fits : Regex → Bool) : List Regex → Option (List Regex)
  | [] => none
  | head :: tail =>
      if fits head then some tail else (strikeFirst fits tail).map (head :: ·)

/-! `strike regex others` takes away from `others` one expression for each operand
of `regex`, if there are enough of them. -/

def strike : Regex → List Regex → Option (List Regex)
  | empty => strikeFirst fun
      | empty => true
      | _ => false
  | nil => strikeFirst fun
      | nil => true
      | _ => false
  | symbol name => strikeFirst fun
      | symbol other => name = other
      | _ => false
  | reference name => strikeFirst fun
      | reference other => name = other
      | _ => false
  | sequence first second => strikeFirst fun
      | sequence otherFirst otherSecond =>
          (strike first otherFirst.operands).any List.isEmpty &&
            (strike second otherSecond.operands).any List.isEmpty
      | _ => false
  | star body => strikeFirst fun
      | star other => (strike body other.operands).any List.isEmpty
      | _ => false
  | alternative left right => fun others => (strike left others).bind (strike right)

def same (left right : Regex) : Bool := (strike left right.operands).any List.isEmpty

def hasSame (regexes : List Regex) (regex : Regex) : Bool := regexes.any (same · regex)

example : same (alternative nil (alternative empty nil)) (alternative (alternative nil nil) empty) =
    true := by decide

end FormalLanguages.Regex
