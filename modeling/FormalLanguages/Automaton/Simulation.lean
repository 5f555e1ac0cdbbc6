import FormalLanguages.Automaton.Basic
import FormalLanguages.Reachability
import FormalLanguages.Text.Segmentation

namespace FormalLanguages.Automaton

/-! Running an automaton on a sequence of symbols, with the set of all states that
it may be in. Only `closure` follows edges that consume nothing. -/

/-! Each round that finds a new state uses up an edge, so there are no more rounds
than there are states to begin with and edges. -/

def closure (automaton : Automaton) (sources : List String) : SortedSet String :=
  SortedSet.ofList <| Reachable.list (sources.length + automaton.edgeCount)
    (fun state => (automaton.targets state .epsilon).toList) sources

def move (automaton : Automaton) (current : SortedSet String) (symbol : String) :
    SortedSet String :=
  current.flatMap fun state => (automaton.targets state (.symbol symbol)).toList

def step (automaton : Automaton) (current : SortedSet String) (symbol : String) :
    SortedSet String :=
  automaton.closure (automaton.move (automaton.closure current.toList) symbol).toList

def runFrom (automaton : Automaton) (state : String) (symbols : List String) : SortedSet String :=
  symbols.foldl automaton.step (automaton.closure [state])

def run (automaton : Automaton) (symbols : List String) : SortedSet String :=
  automaton.runFrom automaton.starting symbols

def acceptsFrom (automaton : Automaton) (state : String) (symbols : List String) : Bool :=
  (automaton.runFrom state symbols).any automaton.isAccepting

def accepts (automaton : Automaton) (symbols : List String) : Bool :=
  automaton.acceptsFrom automaton.starting symbols

def split (automaton : Automaton) (input : String) : List String :=
  Text.split automaton.alphabet.toList input

def acceptsText (automaton : Automaton) (input : String) : Bool :=
  automaton.accepts (automaton.split input)

def followers (automaton : Automaton) (state : String) : List String :=
  (automaton.edges state).toList.map Edge.target

/-- The states that any path at all leads to, whatever it consumes. -/
def reachableStates (automaton : Automaton) : List String :=
  Reachable.list (1 + automaton.edgeCount)
    (fun state => (automaton.edges state).toList.map Edge.target) [automaton.starting]

/-! Whether anything is accepted at all is found by a search for an accepting state that ends
with the first. The state that was found last is looked at next. A state may wait more than
once, and is passed over if it has been visited by then. -/

/-- Without a verdict, the rounds did not suffice. -/
def findsAccepting? (automaton : Automaton) :
    (rounds : Nat) → (visited waiting : List String) → Option Bool
  | 0, _, _ => none
  | _ + 1, _, [] => some false
  | rounds + 1, visited, state :: waiting =>
      if state ∈ visited then
        automaton.findsAccepting? rounds visited waiting
      else if automaton.isAccepting state then
        some true
      else
        let found := (automaton.followers state).filter (· ∉ state :: visited)
        automaton.findsAccepting? rounds (state :: visited) (found.reverse ++ waiting)

/-! A round looks at the start state or at the target of an edge of a visited state, and one
more finds that no state waits. -/

def isEmpty (automaton : Automaton) : Bool :=
  automaton.findsAccepting? (automaton.edgeCount + 2) [] [automaton.starting] = some false

def withoutUnreachable (automaton : Automaton) : Automaton :=
  let reachable := automaton.reachableStates
  { automaton with
    accepting := automaton.accepting.filter (· ∈ reachable)
    rows := automaton.rows.filter fun state _ => state ∈ reachable }

end FormalLanguages.Automaton
