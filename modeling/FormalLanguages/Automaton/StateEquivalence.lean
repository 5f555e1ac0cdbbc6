import FormalLanguages.Automaton.Product

namespace FormalLanguages.Automaton

/-! Which states no sequence of symbols can tell apart. All pairs that agree on
acceptance are taken for equivalent at first; a pair is refuted once a symbol
leads to a refuted pair, until no pair can be refuted. -/

namespace StateEquivalence

inductive Refusal where
  | invalid (side : Side) (faults : List Fault)
  | notDeterministic (side : Side)
deriving DecidableEq, Repr

def Refusal.message : Refusal → String
  | invalid side _ => "Invalid " ++ side.text ++ " automaton"
  | notDeterministic side => "The " ++ side.text ++ " automaton is not deterministic"

def requireDeterministic (side : Side) (automaton : Automaton) : Except Refusal Unit :=
  if !automaton.isValid then .error (.invalid side automaton.faults)
  else if !automaton.isDeterministic then .error (.notDeterministic side)
  else .ok ()

/-- The rows are states of the left automaton and the columns states of the right
one. A pair that holds `true` has not been told apart. -/
structure Table where
  rows : SortedMap String (SortedMap String Bool)
deriving DecidableEq

namespace Table

def get? (table : Table) (left right : String) : Option Bool :=
  (table.rows.get? left).bind fun row => row.get? right

def refute (table : Table) (left right : String) : Table where
  rows := table.rows.mapValues fun row cells =>
    if row = left then
      cells.mapValues fun column value => if column = right then false else value
    else
      cells

/-- The states that were added to complete an automaton are not shown. -/
def without (table : Table) (hiddenRow hiddenColumn : Option String) : Table where
  rows := (table.rows.filter fun row _ => some row ≠ hiddenRow).mapValues fun _ cells =>
    cells.filter fun column _ => some column ≠ hiddenColumn

def initial (left right : Automaton) : Table where
  rows := left.rows.mapValues fun row _ => right.rows.mapValues fun column _ =>
    left.isAccepting row == right.isAccepting column

def truePairs (table : Table) : List (String × String) :=
  table.rows.entries.flatMap fun (row, cells) =>
    (cells.entries.filter Prod.snd).map fun cell => (row, cell.1)

/-! The classes of equivalent states, in the order of their first members. A row
that belongs to the class of an earlier one starts no class of its own. -/

def rowClass (cells : SortedMap String Bool) : SortedSet String :=
  (cells.filter fun _ equivalent => equivalent).keys

def classesFrom (assigned : List String) :
    List (String × SortedMap String Bool) → List (SortedSet String)
  | [] => []
  | (state, cells) :: rest =>
      if state ∈ assigned then
        classesFrom assigned rest
      else
        let members := rowClass cells
        members :: classesFrom (assigned ++ members.toList) rest

def classes (table : Table) : List (SortedSet String) := classesFrom [] table.rows.entries

def columnNames (table : Table) : SortedSet String :=
  SortedSet.ofList (table.rows.values.flatMap SortedMap.keyList)

def cellText : Option Bool → String
  | some true => "="
  | some false => "×"
  | none => ""

def print (table : Table) : String :=
  let columns := table.columnNames.toList
  let width := Text.widest (table.rows.keyList ++ columns)
  let line := fun (cells : List String) => Text.joined "  " (cells.map (Text.padded width))
  let header := line ("" :: columns)
  let body := table.rows.entries.map fun (row, cells) =>
    line (row :: columns.map fun column => cellText (cells.get? column))
  Text.joined "\n" (header :: body)

end Table

/-- A refutation names the symbol and the targets that tell two states apart, and
keeps the table that it leads to. -/
structure Refutation where
  left : String
  right : String
  symbol : String
  leftTarget : String
  rightTarget : String
  table : Table
deriving DecidableEq

/-- The latest refutation comes first. -/
structure Refinement where
  hiddenRow : Option String
  hiddenColumn : Option String
  initial : Table
  refutations : List Refutation
  table : Table

/-- What is fixed while a table is refined. In the table of one automaton with
itself, a pair is refuted in both orders at once. -/
structure Comparison where
  left : Automaton
  right : Automaton
  symmetric : Bool

namespace Comparison

def refuted? (comparison : Comparison) (table : Table) (left right : String) :
    Option (String × String × String) :=
  comparison.left.alphabet.toList.findSome? fun symbol => do
    let leftTarget ← comparison.left.target? left (.symbol symbol)
    let rightTarget ← comparison.right.target? right (.symbol symbol)
    if table.get? leftTarget rightTarget = some false then
      some (symbol, leftTarget, rightTarget)
    else
      none

def refute (comparison : Comparison) (table : Table) (left right : String) : Table :=
  let refuted := table.refute left right
  if comparison.symmetric then refuted.refute right left else refuted

def examine (comparison : Comparison) (progress : Refinement) (pair : String × String) :
    Refinement :=
  let (left, right) := pair
  if progress.table.get? left right ≠ some true then
    progress
  else
    match comparison.refuted? progress.table left right with
    | none => progress
    | some (symbol, leftTarget, rightTarget) =>
        let table := comparison.refute progress.table left right
        let refutation := ⟨left, right, symbol, leftTarget, rightTarget, table⟩
        { progress with table, refutations := refutation :: progress.refutations }

def round (comparison : Comparison) (progress : Refinement) : Refinement :=
  progress.table.truePairs.foldl comparison.examine progress

/-- Every round but the last refutes a pair, so `rounds` need not exceed the number
of pairs. -/
def refineWithin (comparison : Comparison) : (rounds : Nat) → Refinement → Refinement
  | 0, progress => progress
  | rounds + 1, progress =>
      let next := comparison.round progress
      if next.refutations.length = progress.refutations.length then
        progress
      else
        comparison.refineWithin rounds next

def refine (comparison : Comparison) (hiddenRow hiddenColumn : Option String) : Refinement :=
  let table := Table.initial comparison.left comparison.right
  comparison.refineWithin table.truePairs.length ⟨hiddenRow, hiddenColumn, table, [], table⟩

end Comparison

namespace Refinement

def shown (refinement : Refinement) (table : Table) : Table :=
  table.without refinement.hiddenRow refinement.hiddenColumn

def result (refinement : Refinement) : Table := refinement.shown refinement.table

def initialDescription : String := "Accepting and non-accepting states are distinguishable"

def description (refutation : Refutation) : String :=
  refutation.left ++ " and " ++ refutation.right ++ " are distinguishable: on " ++
    refutation.symbol ++ " they go to " ++ refutation.leftTarget ++ " and " ++
    refutation.rightTarget ++ ", which are distinguishable"

def isShown (refinement : Refinement) (refutation : Refutation) : Bool :=
  refinement.hiddenRow ≠ some refutation.left && refinement.hiddenColumn ≠ some refutation.right

def steps (refinement : Refinement) : List (Step Table) :=
  Step.described (refinement.shown refinement.initial) initialDescription ::
    (refinement.refutations.reverse.filter refinement.isShown).map fun refutation =>
      Step.described (refinement.shown refutation.table) (description refutation)

end Refinement

end StateEquivalence

open StateEquivalence

/-- The pairs of states of one automaton. A missing transition leads to a dead
state, which is the sink of the completed automaton. -/
def stateRefinement (automaton : Automaton) : Refinement :=
  let ⟨completed, sink⟩ := automaton.completed
  Comparison.refine ⟨completed, completed, true⟩ sink sink

def stateEquivalence (automaton : Automaton) : Except Refusal Refinement := do
  requireDeterministic .left automaton
  return automaton.stateRefinement

def widened (automaton other : Automaton) : Completed :=
  (automaton.withSymbols other.alphabet.toList).completed

/-- The states of one automaton against those of another, over the symbols of
both. -/
def crossRefinement (left right : Automaton) : Refinement :=
  let wideLeft := widened left right
  let wideRight := widened right wideLeft.automaton
  Comparison.refine ⟨wideLeft.automaton, wideRight.automaton, false⟩ wideLeft.sink wideRight.sink

def crossEquivalence (left right : Automaton) : Except Refusal Refinement := do
  requireDeterministic .left left
  requireDeterministic .right right
  return crossRefinement left right

/-- The class of the start state comes first. -/
def startClassFirst (start : String) (classes : List (SortedSet String)) :
    List (SortedSet String) :=
  match classes.findIdx? (start ∈ ·) with
  | none => classes
  | some position => (classes[position]?).toList ++ classes.eraseIdx position

def equivalenceClasses (automaton : Automaton) : Except Refusal (List (SortedSet String)) := do
  let refinement ← automaton.stateEquivalence
  return startClassFirst automaton.starting refinement.result.classes

def equivalent (left right : Automaton) : Except Refusal Bool := do
  let refinement ← crossEquivalence left right
  return (refinement.result.get? left.starting right.starting).getD false

end FormalLanguages.Automaton
