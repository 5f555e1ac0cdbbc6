import FormalLanguages.Regex.Sameness

namespace FormalLanguages.Regex

/-! Simplifying with the identities

    ∅e = e∅ = ∅          εe = eε = e          (ab)c = a(bc)
    e*e = ee*            (a*b)*a* = (a + b)*  (ab)*a = a(ba)*
    ∅ + e = e            e + e = e            ε + e* = ε + ee* = e*
    ab + ac = a(b + c)   ac + bc = (a + b)c
    ∅* = ε* = ε          (e*)* = e*           (ε + e)* = e*
    (a*b*)* = (a + b)*

at each node, after they have been used on its children. Sequences end up nested
to the right, and alternatives to the left. -/

/-! The first operand of a sequence that is nested to the right, and the others. -/

def splitHead : Regex → Regex × Option Regex
  | sequence head tail => (head, some tail)
  | other => (other, none)

def continued (regex : Regex) : Option Regex → Regex
  | none => regex
  | some tail => sequence regex tail

/-- A star in front of what it repeats, or of the beginning of what it repeats, is
moved behind it. -/
def starThen (body next : Regex) : Regex :=
  let (head, tail) := splitHead next
  if body.same head then
    sequence head (continued (star body) tail)
  else
    match body with
    | sequence _ _ =>
        match body.factors with
        | [] => sequence (star body) next
        | first :: rest =>
            if first.same head then
              match head with
              | star inner => continued (star (alternative inner (catAll rest))) tail
              | _ => sequence head (continued (star (catAll (rest ++ [head]))) tail)
            else
              sequence (star body) next
    | _ => sequence (star body) next

def simplifySequence : Regex → Regex → Regex
  | empty, _ => empty
  | _, empty => empty
  | nil, second => second
  | first, nil => first
  | sequence first middle, last => sequence first (sequence middle last)
  | star body, next => starThen body next
  | first, second => sequence first second

/-! `plusBody? (ee*)` is `e`. -/

def plusBody? : Regex → Option Regex
  | sequence head (star body) => if body.same head then some head else none
  | _ => none

/-- Operands are kept in order, without repetitions and without `∅`. -/
def addOperand (known : List Regex) (operand : Regex) : List Regex :=
  if operand.isEmptyLiteral || hasSame known operand then known else known ++ [operand]

def distinctOperands (left right : Regex) : List Regex :=
  (left.operands ++ right.operands).foldl addOperand []

/-! `ε` is left out beside a star; beside `ee*` it makes that a star. -/

def starFirstPlus : List Regex → Option (List Regex)
  | [] => none
  | head :: tail =>
      match plusBody? head with
      | some body => some (star body :: tail)
      | none => (starFirstPlus tail).map (head :: ·)

def withoutNil (operands : List Regex) : List Regex :=
  operands.filter fun operand => !operand.isNil

def absorbNil (operands : List Regex) : List Regex :=
  if operands.any isNil then
    if operands.any isStar then
      withoutNil operands
    else
      match starFirstPlus operands with
      | some starred => withoutNil starred
      | none => operands
  else
    operands

/-- How many operands two lists have in common at the beginning. -/
def commonLength : List Regex → List Regex → Nat
  | left :: lefts, right :: rights => if left.same right then commonLength lefts rights + 1 else 0
  | _, _ => 0

/-- The longest common beginning of two sequences is pulled out of an alternative,
or else the longest common end. -/
def factorOut? (left right : Regex) : Option Regex :=
  let lefts := left.factors
  let rights := right.factors
  let shared := commonLength lefts rights
  if shared > 0 then
    let rest := alternative (catAll (lefts.drop shared)) (catAll (rights.drop shared))
    some (catAll (lefts.take shared ++ [rest]))
  else
    let sharedEnd := commonLength lefts.reverse rights.reverse
    if sharedEnd > 0 then
      let leftCount := lefts.length - sharedEnd
      let rightCount := rights.length - sharedEnd
      let rest := alternative (catAll (lefts.take leftCount)) (catAll (rights.take rightCount))
      some (catAll (rest :: lefts.drop leftCount))
    else
      none

def simplifyAlternative (left right : Regex) : Regex :=
  let operands := absorbNil (distinctOperands left right)
  match operands with
  | [first, second] => (factorOut? first second).getD (altAll operands)
  | _ => altAll operands

def starBody : Regex → Regex
  | star body => body
  | other => other

def simplifyStar (inner : Regex) : Regex :=
  match inner with
  | empty => nil
  | nil => nil
  | star _ => inner
  | alternative _ _ =>
      if inner.operands.any isNil then star (altAll (withoutNil inner.operands)) else star inner
  | sequence _ _ =>
      if inner.factors.all isStar then star (altAll (inner.factors.map starBody)) else star inner
  | _ => star inner

def simplifyOnce : Regex → Regex
  | sequence first second => simplifySequence (simplifyOnce first) (simplifyOnce second)
  | alternative left right => simplifyAlternative (simplifyOnce left) (simplifyOnce right)
  | star body => simplifyStar (simplifyOnce body)
  | other => other

/-! Passes are repeated until one changes nothing, or up to a limit. -/

def passLimit : Nat := 256

def settle : Nat → Regex → Regex
  | 0, regex => regex
  | passes + 1, regex =>
      let next := simplifyOnce regex
      if next.same regex then regex else settle passes next

def simplify (regex : Regex) : Regex := settle passLimit (simplifyOnce regex)

example : simplify (star (alternative nil (star (symbol "a")))) = star (symbol "a") := by decide

end FormalLanguages.Regex
