import FormalLanguages.Name.Subscript
import FormalLanguages.Regex.Basic

/-! # The grammar of written expressions

The rules are those that the reader documents, for texts without blanks:

    alt  := cat ('+' cat)*
    cat  := post post*
    post := atom '*'*
    atom := '(' alt ')' | '∅' | 'ε' | name

Every derivation has one expression. The rules with a repetition say how its parts are nested:
alternatives and stars to the left, sequences to the right. -/

namespace FormalLanguages.Regex

inductive Rule where
  | alt
  | cat
  | post
  | atom
deriving DecidableEq, Repr

/-- Characters that are never part of a name. -/
def signs : List Char := ['+', '*', '(', ')', '∅', 'ε']

inductive Derives : Rule → List Char → Regex → Prop
  | only {text : List Char} {regex : Regex} (derives : Derives .cat text regex) :
      Derives .alt text regex
  | plus {before after : List Char} {left right : Regex} (first : Derives .alt before left)
      (last : Derives .cat after right) :
      Derives .alt (before ++ '+' :: after) (.alternative left right)
  | last {text : List Char} {regex : Regex} (derives : Derives .post text regex) :
      Derives .cat text regex
  | next {before after : List Char} {first second : Regex} (head : Derives .post before first)
      (tail : Derives .cat after second) :
      Derives .cat (before ++ after) (.sequence first second)
  | bare {text : List Char} {regex : Regex} (derives : Derives .atom text regex) :
      Derives .post text regex
  | starred {text : List Char} {body : Regex} (derives : Derives .post text body) :
      Derives .post (text ++ ['*']) (.star body)
  | enclosed {text : List Char} {regex : Regex} (derives : Derives .alt text regex) :
      Derives .atom ('(' :: (text ++ [')'])) regex
  | empty : Derives .atom ['∅'] .empty
  | nil : Derives .atom ['ε'] .nil
  | symbol {letter : Char} (free : letter ∉ signs) (plain : Name.isSubscript letter = false) :
      Derives .atom [letter] (.symbol (String.ofList [letter]))
  | reference {letter : Char} {digits : List Char} (free : letter ∉ signs)
      (plain : Name.isSubscript letter = false) (some : digits ≠ [])
      (subscripts : ∀ digit, digit ∈ digits → Name.isSubscript digit = true) :
      Derives .atom (letter :: digits) (.reference (String.ofList (letter :: digits)))

/-- The star belongs to the second factor, as it binds more tightly than the sequence. -/
example : Derives .alt ['a', 'b', '*'] (.sequence (.symbol "a") (.star (.symbol "b"))) :=
  .only (.next (.bare (.symbol (by decide) (by decide)))
    (.last (.starred (.bare (.symbol (by decide) (by decide))))))

end FormalLanguages.Regex
