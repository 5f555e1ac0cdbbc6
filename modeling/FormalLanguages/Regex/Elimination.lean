import FormalLanguages.Automaton.Fault
import FormalLanguages.Observation
import FormalLanguages.Regex.Printer
import FormalLanguages.Regex.Simplification

namespace FormalLanguages.Regex

/-! An automaton is turned into an expression by taking its states away one by one.
In between it is a graph whose edges carry expressions. -/

structure Link where
  source : String
  target : String
deriving DecidableEq, Repr

namespace Link

instance : Ord Link := ⟨compareLex (compareOn source) (compareOn target)⟩

instance : Std.TransOrd Link :=
  inferInstanceAs (Std.TransCmp (compareLex (compareOn source) (compareOn target)))

instance : Std.LawfulEqOrd Link where
  eq_of_compare {left right} equal := by
    rcases Ordering.then_eq_eq.mp equal with ⟨sources, targets⟩
    cases left
    cases right
    congr
    · exact Std.LawfulEqOrd.eq_of_compare sources
    · exact Std.LawfulEqOrd.eq_of_compare targets

def touches (link : Link) (state : String) : Bool := link.source = state || link.target = state

end Link

structure Graph where
  start : String
  accept : String
  edges : SortedMap Link Regex
deriving DecidableEq

namespace Graph

/-- Edges between the same two states are merged into one. -/
def add (graph : Graph) (source target : String) (regex : Regex) : Graph :=
  let merged := match graph.edges.get? ⟨source, target⟩ with
    | none => regex
    | some before => (alternative before regex).simplify
  { graph with edges := graph.edges.insert ⟨source, target⟩ merged }

def degree (graph : Graph) (state : String) : Nat :=
  (graph.edges.keyList.filter fun link => link.touches state).length

def loopOf (graph : Graph) (state : String) : Regex :=
  ((graph.edges.get? ⟨state, state⟩).map star).getD nil

def incoming (graph : Graph) (state : String) : List (String × Regex) :=
  (graph.edges.entries.filter fun edge => edge.1.target = state && edge.1.source ≠ state).map
    fun edge => (edge.1.source, edge.2)

def outgoing (graph : Graph) (state : String) : List (String × Regex) :=
  (graph.edges.entries.filter fun edge => edge.1.source = state && edge.1.target ≠ state).map
    fun edge => (edge.1.target, edge.2)

/-- Every path that leads through a state is replaced by an edge past it. -/
def through (before loop after : Regex) : Regex := (catAll [before, loop, after]).simplify

def remove (graph : Graph) (state : String) : Graph :=
  let loop := graph.loopOf state
  let rest := { graph with edges := graph.edges.filter fun link _ => !link.touches state }
  let detours := (graph.incoming state).flatMap fun (source, before) =>
    (graph.outgoing state).map fun (target, after) => (source, target, through before loop after)
  detours.foldl (fun graph (source, target, regex) => graph.add source target regex) rest

def print (graph : Graph) : String :=
  let lines := graph.edges.entries.map fun (link, regex) =>
    link.source ++ " → " ++ link.target ++ ": " ++ regex.print ++ "\n"
  "start " ++ graph.start ++ ", accept " ++ graph.accept ++ "\n" ++ Text.concatenated lines

end Graph

namespace Elimination

/-! The new start state and the new accepting state have names that no state of the
automaton has. A name that is taken is lengthened by a mark; every mark gives
another name, so there are no more marks than states. -/

def lengthened (taken : List String) (mark : String) : Nat → String → String
  | 0, name => name
  | marks + 1, name => if name ∈ taken then lengthened taken mark marks (name ++ mark) else name

def startStem : String := "sₛ"

def startMark : String := "ₛ"

def acceptStem : String := "sₐ"

def acceptMark : String := "ₐ"

def newName (automaton : Automaton) (stem mark : String) : String :=
  lengthened automaton.states.toList mark automaton.states.size stem

def ofLabel : Label → Regex
  | .epsilon => nil
  | .symbol name => symbol name

def addRow (graph : Graph) (entry : String × SortedSet Edge) : Graph :=
  entry.2.toList.foldl (fun graph edge => graph.add entry.1 edge.target (ofLabel edge.label)) graph

def initial (automaton : Automaton) : Graph :=
  let start := newName automaton startStem startMark
  let accept := newName automaton acceptStem acceptMark
  let edges := automaton.rows.entries.foldl addRow ⟨start, accept, ∅⟩
  let started := edges.add start automaton.starting nil
  automaton.accepting.toList.foldl (fun graph state => graph.add state accept nil) started

/-- The state with the fewest edges goes first, and the first by name of those. -/
def precedes (graph : Graph) (left right : String) : Bool :=
  let leftDegree := graph.degree left
  let rightDegree := graph.degree right
  leftDegree < rightDegree || (leftDegree = rightDegree && compare left right = .lt)

def next (graph : Graph) (first : String) (others : List String) : String :=
  others.foldl (fun best other => if precedes graph other best then other else best) first

/-- The graphs met on the way, each with the state that was removed to get there. -/
def removals : (count : Nat) → Graph → List String → List (String × Graph)
  | 0, _, _ => []
  | _ + 1, _, [] => []
  | count + 1, graph, first :: others =>
      let state := next graph first others
      let smaller := graph.remove state
      (state, smaller) :: removals count smaller ((first :: others).erase state)

def final (start : Graph) (removed : List (String × Graph)) : Graph :=
  (removed.getLast?.map Prod.snd).getD start

/-- Nothing is accepted unless an edge from the start to the accepting state is
left over. -/
def regexOf? (graph : Graph) : Option Regex :=
  match graph.edges.entries with
  | [(link, regex)] =>
      if link.source = graph.start && link.target = graph.accept then some regex.simplify else none
  | _ => none

def initialDescription (graph : Graph) : String :=
  "Added the start state " ++ graph.start ++ " and the accepting state " ++ graph.accept

def removedDescription (state : String) : String := "Eliminated " ++ state

def eliminate (automaton : Automaton) : Observed Graph (Option Regex) :=
  let graph := initial automaton
  let states := automaton.states.toList
  let removed := removals states.length graph states
  { result := regexOf? (final graph removed)
    steps := Step.described graph (initialDescription graph) ::
      removed.map fun (state, smaller) => Step.described smaller (removedDescription state) }

end Elimination

end FormalLanguages.Regex

namespace FormalLanguages.Automaton

def toRegex (automaton : Automaton) :
    Except (List Fault) (Observed Regex.Graph (Option Regex)) := do
  automaton.requireValid
  return Regex.Elimination.eliminate automaton

end FormalLanguages.Automaton
