import FormalLanguages.Collection.Entries
import FormalLanguages.Grammar.Membership
import FormalLanguages.Grammar.ParseTree

namespace FormalLanguages.Grammar

/-! Parse trees are found by charting every part of the input that a non-terminal
derives, from the shortest parts to the longest. The chart keeps how a part was first
derived, and trees are read back from it. -/

structure Span where
  nonTerminal : String
  first : Nat
  last : Nat
deriving DecidableEq, Repr

/-- The alternative that was taken, by its position, and where its tokens end. -/
structure Split where
  alternative : Nat
  ends : List Nat
deriving DecidableEq, Repr

/-- What was found last comes first. -/
structure Chart where
  grammar : Grammar
  input : List String
  derived : List (Span × Split)

namespace Chart

def get? (chart : Chart) (span : Span) : Option Split := Entries.lookup span chart.derived

def record (chart : Chart) (span : Span) (split : Split) : Chart :=
  { chart with derived := (span, split) :: chart.derived }

@[simp] theorem get?_record (chart : Chart) (span other : Span) (split : Split) :
    (chart.record span split).get? other =
      if span = other then some split else chart.get? other := rfl

/-! ### Splitting a part among the tokens of an alternative -/

def fits (chart : Chart) (token : Token) (first last : Nat) : Bool :=
  match token with
  | .nonTerminal name => (chart.get? ⟨name, first, last⟩).isSome
  | .terminal name => last = first + 1 && chart.input[first]? = some name
  | .empty => first = last

/-- The ends of the tokens of an alternative, with the earliest ends first. -/
def split? (chart : Chart) : List Token → (first last : Nat) → Option (List Nat)
  | [], first, last => if first = last then some [] else none
  | token :: rest, first, last =>
      (List.range' first (last + 1 - first)).findSome? fun middle =>
        if chart.fits token first middle then (chart.split? rest middle last).map (middle :: ·)
        else none

/-! ### Filling the chart -/

/-! Longer alternatives are tried first, and of equally long ones the earlier. Each goes
with its position. -/

def insertLonger (choice : Alternative × Nat) : List (Alternative × Nat) → List (Alternative × Nat)
  | [] => [choice]
  | head :: tail =>
      if choice.1.length < head.1.length then head :: insertLonger choice tail
      else choice :: head :: tail

def longestFirst (alternatives : List Alternative) : List (Alternative × Nat) :=
  alternatives.zipIdx.foldr insertLonger []

def order (grammar : Grammar) : List (String × List (Alternative × Nat)) :=
  grammar.productions.entries.map fun production => (production.1, longestFirst production.2)

def derive? (chart : Chart) (first last : Nat) (choice : Alternative × Nat) : Option Split :=
  (chart.split? choice.1 first last).map (Split.mk choice.2)

def tryHead (first last : Nat) (chart : Chart) (production : String × List (Alternative × Nat)) :
    Chart :=
  let span : Span := ⟨production.1, first, last⟩
  if (chart.get? span).isSome then
    chart
  else
    match production.2.findSome? (chart.derive? first last) with
    | none => chart
    | some split => chart.record span split

/-- A part may be derived through itself, by alternatives whose other tokens derive
the empty sequence, so passes go on until one finds nothing. -/
def saturate (productions : List (String × List (Alternative × Nat))) (first last : Nat) :
    (passes : Nat) → Chart → Chart
  | 0, chart => chart
  | passes + 1, chart =>
      let next := productions.foldl (tryHead first last) chart
      if next.derived.length = chart.derived.length then chart
      else saturate productions first last passes next

def fillPart (productions : List (String × List (Alternative × Nat))) (length : Nat)
    (chart : Chart) (first : Nat) : Chart :=
  saturate productions first (first + length) productions.length chart

def fillLength (productions : List (String × List (Alternative × Nat))) (chart : Chart)
    (length : Nat) : Chart :=
  (List.range (chart.input.length + 1 - length)).foldl (fillPart productions length) chart

def fill (grammar : Grammar) (input : List String) : Chart :=
  (List.range (input.length + 1)).foldl (fillLength (order grammar)) ⟨grammar, input, []⟩

/-! ### Reading trees back -/

/-- There is a child for each token that has an end. -/
def children? (child? : Token → Nat → Nat → Option ParseTree) :
    List Token → (first : Nat) → List Nat → Option (List ParseTree)
  | token :: tokens, first, last :: ends => do
      let child ← child? token first last
      let children ← children? child? tokens last ends
      return child :: children
  | _, _, _ => some []

def branch? (chart : Chart) (child? : Token → Nat → Nat → Option ParseTree) (name : String)
    (first last : Nat) : Option ParseTree := do
  let split ← chart.get? ⟨name, first, last⟩
  let alternative ← (chart.grammar.alternatives name)[split.alternative]?
  let children ← children? child? alternative first split.ends
  return .branch name (Forest.ofList children)

def treeWithin? (chart : Chart) : (depth : Nat) → Token → (first last : Nat) → Option ParseTree
  | _, .terminal name, _, _ => some (.terminal name)
  | _, .empty, _, _ => some .empty
  | 0, .nonTerminal _, _, _ => none
  | depth + 1, .nonTerminal name, first, last =>
      chart.branch? (chart.treeWithin? depth) name first last

@[simp] theorem treeWithin?_terminal (chart : Chart) (depth : Nat) (name : String)
    (first last : Nat) :
    chart.treeWithin? depth (.terminal name) first last = some (.terminal name) := by
  cases depth <;> rfl

@[simp] theorem treeWithin?_empty (chart : Chart) (depth first last : Nat) :
    chart.treeWithin? depth .empty first last = some .empty := by
  cases depth <;> rfl

/-- What is found is derived from what was found before, so no tree is deeper than the chart has
entries. -/
def tree? (chart : Chart) (nonTerminal : String) (first last : Nat) : Option ParseTree :=
  chart.treeWithin? chart.derived.length (.nonTerminal nonTerminal) first last

end Chart

/-- An input that is not empty is looked up in the membership table first. -/
def parse? (grammar : Grammar) (input : String) : Option ParseTree :=
  match grammar.start with
  | none => none
  | some start =>
      if input ≠ "" && !(grammar.membership input).derives start then
        none
      else
        let tokens := grammar.tokenise input
        (Chart.fill grammar tokens).tree? start 0 tokens.length

end FormalLanguages.Grammar
