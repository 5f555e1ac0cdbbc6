import FormalLanguages.Automaton.Basic
import FormalLanguages.Name.Fresh

namespace FormalLanguages.Automaton

/-! Completing an automaton sends every missing transition to a sink: a new state
that does not accept and that is never left. -/

def emptySetName : String := "∅"

def lacks (row : SortedSet Edge) (symbol : String) : Bool :=
  (targetsIn row (.symbol symbol)).isEmpty

def isPartial (automaton : Automaton) : Bool :=
  automaton.rows.values.any fun row => automaton.alphabet.any (lacks row)

def sinkName (automaton : Automaton) : String :=
  Name.freshOrSelf emptySetName automaton.states.toList

def completedRow (alphabet : SortedSet String) (sink : String) (row : SortedSet Edge) :
    SortedSet Edge :=
  row.union <| SortedSet.ofList <| (alphabet.toList.filter (lacks row)).map fun symbol =>
    ⟨.symbol symbol, sink⟩

structure Completed where
  automaton : Automaton
  sink : Option String
deriving DecidableEq

def completed (automaton : Automaton) : Completed :=
  if automaton.isPartial then
    let sink := automaton.sinkName
    { automaton :=
        { automaton with
          rows := (automaton.rows.insert sink ∅).mapValues fun _ row =>
            completedRow automaton.alphabet sink row }
      sink := some sink }
  else
    ⟨automaton, none⟩

end FormalLanguages.Automaton
