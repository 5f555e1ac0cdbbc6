import FormalLanguages.Automaton.Basic
import FormalLanguages.Text.Pieces
import FormalLanguages.Text.Quoted

namespace FormalLanguages.Automaton

/-! What can be wrong with an automaton: it may mention a state that has no row,
or a symbol that is not in the alphabet. -/

inductive Fault where
  | startState (state : String)
  | acceptingState (state : String)
  | foreignSymbol (state symbol : String)
  | edgeTarget (state : String) (label : Label) (target : String)
deriving DecidableEq, Repr

namespace Fault

def location : Fault → List String
  | startState _ => ["start"]
  | acceptingState _ => ["accepting"]
  | foreignSymbol state _ => ["states", state]
  | edgeTarget state label _ => ["states", state, label.text]

def missingState (state : String) : String :=
  "no state named " ++ Text.quotedName state ++ " exists"

def message : Fault → String
  | startState state => missingState state
  | acceptingState state => missingState state
  | foreignSymbol _ symbol => Text.quotedName symbol ++ " is not part of the alphabet"
  | edgeTarget _ _ target => missingState target

def text (fault : Fault) : String :=
  Text.joined " → " fault.location ++ ": " ++ fault.message

end Fault

def labelFaults (automaton : Automaton) (state : String) (row : SortedSet Edge) (label : Label) :
    List Fault :=
  let foreign := label.symbol?.toList.filter fun symbol => symbol ∉ automaton.alphabet
  let unknown := (targetsIn row label).toList.filter fun target => target ∉ automaton.states
  foreign.map (.foreignSymbol state) ++ unknown.map (.edgeTarget state label)

def rowFaults (automaton : Automaton) (state : String) (row : SortedSet Edge) : List Fault :=
  (labels row).toList.flatMap (automaton.labelFaults state row)

/-- All faults, the start state first and the edges last. -/
def faults (automaton : Automaton) : List Fault :=
  ([automaton.starting].filter (· ∉ automaton.states)).map .startState ++
    (automaton.accepting.toList.filter (· ∉ automaton.states)).map .acceptingState ++
    automaton.rows.entries.flatMap fun (state, row) => automaton.rowFaults state row

def isValid (automaton : Automaton) : Bool := automaton.faults.isEmpty

def faultsMessage (faults : List Fault) : String :=
  "Invalid automaton: " ++ Text.naturalList (faults.map Fault.text)

/-- An operation that needs a sound automaton refuses any other, with its faults. -/
def requireValid (automaton : Automaton) : Except (List Fault) Unit :=
  if automaton.isValid then .ok () else .error automaton.faults

end FormalLanguages.Automaton
