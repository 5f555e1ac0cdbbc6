import FormalLanguages.Automaton.Completion
import FormalLanguages.Automaton.Fault
import FormalLanguages.Automaton.Simulation
import FormalLanguages.Observation

namespace FormalLanguages.Automaton

/-! The subset construction: a deterministic automaton whose states stand for the
sets of states that the given automaton may be in. -/

namespace Subset

def name (states : SortedSet String) : String := Text.joined "," states.toList

/-- Sets of states that are reached by the symbols of the alphabet, in order of
discovery. The empty set is left out: it is not a state but the sink. -/
def successors (automaton : Automaton) (current : SortedSet String) : List (SortedSet String) :=
  (automaton.alphabet.toList.map (automaton.step current)).filter fun set => !set.isEmpty

def initial (automaton : Automaton) : SortedSet String := automaton.closure [automaton.starting]

/-- Every set that is met holds states that the automaton mentions, and there are
no more of those than states and edges. -/
def reached (automaton : Automaton) : List (SortedSet String) :=
  Reachable.list (Nat.pow 2 (1 + automaton.edgeCount)) (successors automaton) [initial automaton]

/-! Joined names may collide with each other, as those of `a,b` and of `a` with
`b`, so each set takes its joined name or counts it up. -/

abbrev Naming := List (SortedSet String × String)

def assign (sink : String) (naming : Naming) (set : SortedSet String) : Naming :=
  naming ++ [(set, Name.freshOrSelf (name set) (sink :: naming.map Prod.snd))]

def naming (sink : String) (sets : List (SortedSet String)) : Naming :=
  sets.foldl (assign sink) []

/-- The empty set is the one set that is never named: it leads to the sink. -/
def nameOf (naming : Naming) (sink : String) (set : SortedSet String) : String :=
  ((naming.find? fun entry => entry.1 = set).map Prod.snd).getD sink

def expand (automaton : Automaton) (nameOf : SortedSet String → String)
    (built : Automaton) (set : SortedSet String) : Automaton :=
  let source := nameOf set
  let declared := if set.any automaton.isAccepting then built.withAccepting source else built
  automaton.alphabet.toList.foldl (fun built symbol =>
    built.withTransition source (Label.ofText symbol) (nameOf (automaton.step set symbol)))
    declared

def needsSink (automaton : Automaton) (sets : List (SortedSet String)) : Bool :=
  sets.any fun set => automaton.alphabet.any fun symbol => (automaton.step set symbol).isEmpty

def addSink (automaton : Automaton) (sink : String) (built : Automaton) : Automaton :=
  automaton.alphabet.toList.foldl (fun built symbol =>
    built.withTransition sink (Label.ofText symbol) sink) built

def expandedDescription (set : SortedSet String) : String :=
  "Expanded \x7b" ++ Text.joined ", " set.toList ++ "\x7d"

def sinkDescription (sink : String) : String :=
  "Missing transitions lead to the sink state " ++ sink

def construct (automaton : Automaton) : Observed Automaton Automaton :=
  let sink := automaton.sinkName
  let sets := reached automaton
  let nameOf := nameOf (naming sink sets) sink
  let start := (new (nameOf (initial automaton))).withSymbols automaton.alphabet.toList
  let expansions := progress (expand automaton nameOf) start sets
  let expanded := sets.foldl (expand automaton nameOf) start
  let steps := expansions.map fun (set, built) => Step.described built (expandedDescription set)
  if needsSink automaton sets then
    let result := addSink automaton sink expanded
    ⟨result, steps ++ [Step.described result (sinkDescription sink)]⟩
  else
    ⟨expanded, steps⟩

end Subset

def determinise (automaton : Automaton) : Except (List Fault) (Observed Automaton Automaton) := do
  automaton.requireValid
  return Subset.construct automaton

end FormalLanguages.Automaton
