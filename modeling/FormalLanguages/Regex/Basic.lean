import FormalLanguages.Collection.SortedSet

namespace FormalLanguages

/-! Regular expressions. A reference stands for an expression that is defined
elsewhere, and matches nothing by itself. -/

inductive Regex where
  | empty
  | nil
  | symbol (name : String)
  | reference (name : String)
  | sequence (first second : Regex)
  | alternative (left right : Regex)
  | star (body : Regex)
deriving DecidableEq, Repr

namespace Regex

instance : Inhabited Regex := ⟨empty⟩

/-! Sequences are nested to the right and alternatives to the left. -/

def catAll : List Regex → Regex
  | [] => nil
  | [last] => last
  | first :: next :: rest => sequence first (catAll (next :: rest))

def altAll : List Regex → Regex
  | [] => empty
  | first :: rest => rest.foldl alternative first

theorem catAll_cons {regexes : List Regex} (some : regexes ≠ []) (first : Regex) :
    catAll (first :: regexes) = sequence first (catAll regexes) := by
  cases regexes with
  | nil => exact absurd rfl some
  | cons next rest => rfl

/-! The operands of nested sequences and of nested alternatives, however they are
nested. What is not a sequence is its own only operand. -/

def factors : Regex → List Regex
  | sequence first second => factors first ++ factors second
  | other => [other]

def operands : Regex → List Regex
  | alternative left right => operands left ++ operands right
  | other => [other]

example : factors (sequence (sequence nil empty) nil) = [nil, empty, nil] := rfl

def names : Regex → List String
  | empty => []
  | nil => []
  | symbol name => [name]
  | reference name => [name]
  | sequence first second => names first ++ names second
  | alternative left right => names left ++ names right
  | star body => names body

def symbols (regex : Regex) : SortedSet String := SortedSet.ofList regex.names

/-- Whether nothing at all can be matched, if references match something. -/
def isEmpty : Regex → Bool
  | empty => true
  | nil => false
  | symbol _ => false
  | reference _ => false
  | sequence first second => isEmpty first || isEmpty second
  | alternative left right => isEmpty left && isEmpty right
  | star _ => false

def replace (regex : Regex) (name : String) (replacement : Regex) : Regex :=
  match regex with
  | empty => empty
  | nil => nil
  | symbol symbolName => symbol symbolName
  | reference referenceName => if referenceName = name then replacement else regex
  | sequence first second =>
      sequence (first.replace name replacement) (second.replace name replacement)
  | alternative left right =>
      alternative (left.replace name replacement) (right.replace name replacement)
  | star body => star (body.replace name replacement)

def isEmptyLiteral : Regex → Bool
  | empty => true
  | _ => false

def isNil : Regex → Bool
  | nil => true
  | _ => false

def isStar : Regex → Bool
  | star _ => true
  | _ => false

end Regex

end FormalLanguages
