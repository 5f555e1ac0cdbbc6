import FormalLanguages.Grammar.Basic

namespace FormalLanguages.Grammar

/-! What non-terminals can derive, found as fixed points over the productions. -/

/-! `grownWithin` lets non-terminals join as soon as their alternatives are admitted
by those that joined before. Every pass but the last adds one. -/

abbrev Admission := List Alternative → SortedSet String → Bool

def join (grammar : Grammar) (admits : Admission) (found : SortedSet String) (name : String) :
    SortedSet String :=
  if name ∉ found && admits (grammar.alternatives name) found then found.insert name else found

def grownWithin (grammar : Grammar) (admits : Admission) :
    (passes : Nat) → SortedSet String → SortedSet String
  | 0, found => found
  | passes + 1, found =>
      let grown := grammar.nonTerminals.toList.foldl (grammar.join admits) found
      if grown.size = found.size then found else grammar.grownWithin admits passes grown

def grown (grammar : Grammar) (admits : Admission) : SortedSet String :=
  grammar.grownWithin admits grammar.nonTerminals.toList.length ∅

/-! The non-terminals that derive some sequence of terminals. -/

def derivesSomething (generating : SortedSet String) (alternative : Alternative) : Bool :=
  alternative.all fun token =>
    match token with
    | .nonTerminal name => name ∈ generating
    | _ => true

def generatingNonTerminals (grammar : Grammar) : SortedSet String :=
  grammar.grown fun alternatives found => alternatives.any (derivesSomething found)

def generatingSymbols (grammar : Grammar) : SortedSet Token :=
  (SortedSet.ofList (grammar.terminals.toList.map Token.terminal)).union
    (grammar.generatingNonTerminals.map Token.nonTerminal)

/-! The non-terminals that derive the empty sequence. -/

def derivesEmpty (nullable : SortedSet String) (alternative : Alternative) : Bool :=
  alternative.all fun token =>
    match token with
    | .nonTerminal name => name ∈ nullable
    | .terminal _ => false
    | .empty => true

def nullableNonTerminals (grammar : Grammar) : SortedSet String :=
  grammar.grown fun alternatives found => alternatives.any (derivesEmpty found)

/-- The non-terminals that derive the empty sequence and nothing else: the largest
set of nullable non-terminals whose alternatives hold nothing but members of the
set, so that the `N` of `N → ε | NN` is among them. -/
def shrunk (grammar : Grammar) (null : SortedSet String) : SortedSet String :=
  null.filter fun name => (grammar.alternatives name).all (derivesEmpty null)

def shrunkWithin (grammar : Grammar) : (passes : Nat) → SortedSet String → SortedSet String
  | 0, null => null
  | passes + 1, null =>
      let next := grammar.shrunk null
      if next.size = null.size then null else grammar.shrunkWithin passes next

def nullNonTerminals (grammar : Grammar) : SortedSet String :=
  let nullable := grammar.nullableNonTerminals
  grammar.shrunkWithin nullable.size nullable

end FormalLanguages.Grammar
