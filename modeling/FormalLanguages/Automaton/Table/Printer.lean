import FormalLanguages.Automaton.Completion
import FormalLanguages.Name.StartFirst
import FormalLanguages.Text.Pieces

namespace FormalLanguages.Automaton.Table

/-! Printing an automaton as a table, the start state first. A deterministic
automaton has bare targets, any other has sets of targets. -/

def braced (inside : String) : String := "\x7b" ++ inside ++ "\x7d"

def targetsCell (bare : Bool) (targets : SortedSet String) : String :=
  match targets.toList with
  | [] => emptySetName
  | [target] =>
      if bare && target != emptySetName then target else braced target
  | several => braced (Text.joined ", " several)

def columnLabels (automaton : Automaton) : List Label :=
  let symbols := automaton.alphabet.toList.map Label.symbol
  if automaton.kind = .withEpsilon then .epsilon :: symbols else symbols

def stateCell (automaton : Automaton) (state : String) : String :=
  (if state = automaton.starting then "→ " else "") ++
    (if automaton.isAccepting state then "* " else "") ++ state

def rowCells (automaton : Automaton) (state : String) : List String :=
  stateCell automaton state :: (columnLabels automaton).map fun label =>
    targetsCell automaton.isDeterministic (automaton.targets state label)

def headerCells (automaton : Automaton) : List String :=
  "" :: (columnLabels automaton).map Label.text

/-- Every column is as wide as its widest cell. -/
def columnWidths : List (List String) → List Nat
  | [] => []
  | [row] => row.map String.length
  | row :: rest => List.zipWith (fun cell width => max cell.length width) row (columnWidths rest)

def line (widths : List Nat) (cells : List String) : String :=
  String.ofList (Text.trimEnd (Text.joined "  " (List.zipWith Text.padded widths cells)).toList)

def cells (automaton : Automaton) : List (List String) :=
  let states := Name.startFirst automaton.states.toList (some automaton.starting)
  headerCells automaton :: states.map (rowCells automaton)

def print (automaton : Automaton) : String :=
  let rows := cells automaton
  Text.joined "\n" (rows.map (line (columnWidths rows)))

end FormalLanguages.Automaton.Table
