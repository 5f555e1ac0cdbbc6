import FormalLanguages.Regex.Basic

namespace FormalLanguages.Regex

/-! Expressions are written with as few parentheses as their nesting allows. -/

def emptyText : String := "∅"

def nilText : String := "ε"

/-- A higher precedence binds more tightly. -/
def precedence : Regex → Nat
  | alternative _ _ => 1
  | sequence _ _ => 2
  | star _ => 3
  | symbol _ => 4
  | reference _ => 4
  | nil => 5
  | empty => 6

def parenthesised (needed : Bool) (text : String) : String :=
  if needed then "(" ++ text ++ ")" else text

def print : Regex → String
  | empty => emptyText
  | nil => nilText
  | symbol name => name
  | reference name => name
  | sequence first second =>
      parenthesised (precedence first < 2) (print first) ++
        parenthesised (precedence second < 2) (print second)
  | alternative left right =>
      parenthesised (precedence left < 1) (print left) ++ " + " ++
        parenthesised (precedence right ≤ 1) (print right)
  | star body => parenthesised (precedence body < 3) (print body) ++ "*"

example : print (star (alternative (symbol "a") (sequence (symbol "b") nil))) = "(a + bε)*" := by
  decide

end FormalLanguages.Regex
