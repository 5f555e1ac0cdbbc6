import FormalLanguages.Collection.DeclaredMap
import FormalLanguages.Collection.DeclaredSet
import FormalLanguages.Grammar.Token
import FormalLanguages.Text.Quoted

namespace FormalLanguages

/-! A context-free grammar. Declarations keep their order. -/

structure Grammar where
  nonTerminals : DeclaredSet String
  terminals : DeclaredSet String
  productions : DeclaredMap String (List Alternative)
  start : Option String
deriving DecidableEq

namespace Grammar

/-- A non-terminal without a production has no alternatives. -/
def alternatives (grammar : Grammar) (nonTerminal : String) : List Alternative :=
  (grammar.productions.get? nonTerminal).getD []

/-- Grammars are the same if they differ in the order of declarations only. The
order of the alternatives of a non-terminal matters. -/
def same (left right : Grammar) : Bool :=
  left.nonTerminals.sameMembers right.nonTerminals &&
    left.terminals.sameMembers right.terminals &&
    left.productions.sameEntries right.productions &&
    left.start = right.start

/-! ### Well-formed grammars -/

inductive Fault where
  | unknownHead (head : String)
  | unknownNonTerminal (head name : String)
  | unknownTerminal (head name : String)
  | unknownStart (start : String)
deriving DecidableEq, Repr

def Fault.message : Fault → String
  | unknownHead head =>
      "Production given for undeclared non-terminal " ++ Text.quotedName head
  | unknownNonTerminal head name =>
      "Production of " ++ head ++ " uses undeclared non-terminal " ++ Text.quotedName name
  | unknownTerminal head name =>
      "Production of " ++ head ++ " uses undeclared terminal " ++ Text.quotedName name
  | unknownStart start => "Start symbol " ++ Text.quotedName start ++ " is not a non-terminal"

/-- In a well-formed grammar every symbol that is mentioned is declared. -/
def Declares (grammar : Grammar) : Token → Prop
  | .nonTerminal name => name ∈ grammar.nonTerminals
  | .terminal name => name ∈ grammar.terminals
  | .empty => True

structure WellFormed (grammar : Grammar) : Prop where
  heads : ∀ head, head ∈ grammar.productions → head ∈ grammar.nonTerminals
  tokens : ∀ head alternatives, grammar.productions.get? head = some alternatives →
    ∀ alternative, alternative ∈ alternatives → ∀ token, token ∈ alternative →
      grammar.Declares token
  start : ∀ start, grammar.start = some start → start ∈ grammar.nonTerminals

def tokenFault? (grammar : Grammar) (head : String) : Token → Option Fault
  | .nonTerminal name =>
      if name ∈ grammar.nonTerminals then none else some (.unknownNonTerminal head name)
  | .terminal name =>
      if name ∈ grammar.terminals then none else some (.unknownTerminal head name)
  | .empty => none

def productionFault? (grammar : Grammar) (production : String × List Alternative) :
    Option Fault :=
  if production.1 ∈ grammar.nonTerminals then
    production.2.flatten.findSome? (grammar.tokenFault? production.1)
  else
    some (.unknownHead production.1)

def startFault? (grammar : Grammar) : Option Fault :=
  match grammar.start with
  | none => none
  | some start => if start ∈ grammar.nonTerminals then none else some (.unknownStart start)

/-- Productions are looked at in order, and the start symbol last. -/
def fault? (grammar : Grammar) : Option Fault :=
  (grammar.productions.entries.findSome? grammar.productionFault?).or grammar.startFault?

def checked (grammar : Grammar) : Except Fault Grammar :=
  match grammar.fault? with
  | none => .ok grammar
  | some fault => .error fault

theorem tokenFault?_eq_none_iff {grammar : Grammar} {head : String} {token : Token} :
    grammar.tokenFault? head token = none ↔ grammar.Declares token := by
  cases token <;> simp [tokenFault?, Declares]

theorem productionFault?_eq_none_iff {grammar : Grammar}
    {production : String × List Alternative} :
    grammar.productionFault? production = none ↔
      production.1 ∈ grammar.nonTerminals ∧
        ∀ alternative, alternative ∈ production.2 → ∀ token, token ∈ alternative →
          grammar.Declares token := by
  simp only [productionFault?]
  split
  case isTrue declared =>
      simp only [List.findSome?_eq_none_iff, List.mem_flatten, tokenFault?_eq_none_iff]
      exact ⟨fun all => ⟨declared, fun alternative inside token member =>
          all token ⟨alternative, inside, member⟩⟩,
        fun all token ⟨alternative, inside, member⟩ => all.2 alternative inside token member⟩
  case isFalse undeclared => simp [undeclared]

theorem startFault?_eq_none_iff {grammar : Grammar} :
    grammar.startFault? = none ↔
      ∀ start, grammar.start = some start → start ∈ grammar.nonTerminals := by
  unfold startFault?
  split <;> simp [*]

/-- No fault is found exactly if every symbol that is mentioned is declared. -/
theorem fault?_eq_none_iff {grammar : Grammar} : grammar.fault? = none ↔ grammar.WellFormed := by
  simp only [fault?, Option.or_eq_none_iff, List.findSome?_eq_none_iff,
    productionFault?_eq_none_iff, startFault?_eq_none_iff]
  constructor
  · rintro ⟨productions, start⟩
    refine ⟨fun head member => ?_, fun head alternatives found => ?_, start⟩
    · rcases List.mem_map.mp member with ⟨production, inside, rfl⟩
      exact (productions production inside).1
    · exact (productions (head, alternatives) (DeclaredMap.get?_eq_some_iff.mp found)).2
  · rintro ⟨heads, tokens, start⟩
    refine ⟨fun production inside => ⟨heads _ (List.mem_map_of_mem inside), ?_⟩, start⟩
    exact tokens _ _ (DeclaredMap.get?_eq_some_iff.mpr inside)

theorem checked_eq_ok_iff {grammar result : Grammar} :
    checked grammar = .ok result ↔ grammar.WellFormed ∧ grammar = result := by
  rw [← fault?_eq_none_iff, checked]
  cases grammar.fault? <;> simp

def new (nonTerminals terminals : List String) (productions : List (String × List Alternative))
    (start : Option String) : Except Fault Grammar :=
  checked
    { nonTerminals := DeclaredSet.ofList nonTerminals
      terminals := DeclaredSet.ofList terminals
      productions := DeclaredMap.ofList productions
      start }

/-! ### Changing a grammar

What takes away declarations, or mentions symbols, is checked. -/

def addNonTerminal (grammar : Grammar) (name : String) : Grammar :=
  { grammar with nonTerminals := grammar.nonTerminals.insert name }

def dropNonTerminal (grammar : Grammar) (name : String) : Grammar :=
  { grammar with
    nonTerminals := grammar.nonTerminals.erase name
    productions := grammar.productions.erase name }

def removeNonTerminal (grammar : Grammar) (name : String) : Except Fault Grammar :=
  checked (grammar.dropNonTerminal name)

def addTerminal (grammar : Grammar) (name : String) : Grammar :=
  { grammar with terminals := grammar.terminals.insert name }

def removeTerminal (grammar : Grammar) (name : String) : Except Fault Grammar :=
  checked { grammar with terminals := grammar.terminals.erase name }

def setAlternatives (grammar : Grammar) (head : String) (alternatives : List Alternative) :
    Grammar :=
  { grammar with productions := grammar.productions.insert head alternatives }

@[simp] theorem alternatives_setAlternatives (grammar : Grammar) (head other : String)
    (alternatives : List Alternative) :
    (grammar.setAlternatives head alternatives).alternatives other =
      if head = other then alternatives else grammar.alternatives other := by
  simp only [Grammar.alternatives, setAlternatives, DeclaredMap.get?_insert]
  split <;> rfl

def addAlternative (grammar : Grammar) (head : String) (alternative : Alternative) : Grammar :=
  grammar.setAlternatives head (grammar.alternatives head ++ [alternative])

def addProduction (grammar : Grammar) (head : String) (alternative : Alternative) :
    Except Fault Grammar :=
  checked (grammar.addAlternative head alternative)

def clearProduction (grammar : Grammar) (head : String) : Grammar :=
  { grammar with productions := grammar.productions.erase head }

def setStart (grammar : Grammar) (start : Option String) : Except Fault Grammar :=
  checked { grammar with start }

end Grammar

end FormalLanguages
