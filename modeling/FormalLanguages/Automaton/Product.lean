import FormalLanguages.Automaton.Subset

namespace FormalLanguages.Automaton

/-! Two complete deterministic automata over one alphabet, run in lockstep. -/

inductive Side where
  | left
  | right
deriving DecidableEq, Repr

def Side.text : Side → String
  | left => "left"
  | right => "right"

namespace Product

inductive Refusal where
  | invalid (side : Side) (faults : List Fault)
  | notComplete (side : Side)
  | differentAlphabets
deriving DecidableEq, Repr

def Refusal.message : Refusal → String
  | invalid side _ => "Invalid " ++ side.text ++ " automaton"
  | notComplete side => "The " ++ side.text ++ " automaton is not a complete DFA"
  | differentAlphabets => "The automata have different alphabets"

/-- Whether a pair of states accepts follows from whether its members do. -/
inductive Acceptance where
  | both
  | either
deriving DecidableEq, Repr

def Acceptance.holds : Acceptance → Bool → Bool → Bool
  | both, left, right => left && right
  | either, left, right => left || right

def requireComplete (side : Side) (automaton : Automaton) : Except Refusal Unit :=
  if !automaton.isValid then .error (.invalid side automaton.faults)
  else if !automaton.isComplete then .error (.notComplete side)
  else .ok ()

def requireCombinable (left right : Automaton) : Except Refusal Unit := do
  requireComplete .left left
  requireComplete .right right
  if left.alphabet ≠ right.alphabet then
    throw .differentAlphabets

abbrev Pair := String × String

def name (pair : Pair) : String := "(" ++ pair.1 ++ "," ++ pair.2 ++ ")"

def follow? (left right : Automaton) (pair : Pair) (symbol : String) : Option Pair := do
  let leftTarget ← left.target? pair.1 (.symbol symbol)
  let rightTarget ← right.target? pair.2 (.symbol symbol)
  return (leftTarget, rightTarget)

def reached (left right : Automaton) : List Pair :=
  Reachable.list ((1 + left.edgeCount) * (1 + right.edgeCount))
    (fun pair => left.alphabet.toList.filterMap (follow? left right pair))
    [(left.starting, right.starting)]

def accepts (acceptance : Acceptance) (left right : Automaton) (pair : Pair) : Bool :=
  acceptance.holds (left.isAccepting pair.1) (right.isAccepting pair.2)

def expand (acceptance : Acceptance) (left right built : Automaton) (pair : Pair) : Automaton :=
  let source := name pair
  let declared := if accepts acceptance left right pair then built.withAccepting source else built
  left.alphabet.toList.foldl (fun built symbol =>
    match follow? left right pair symbol with
    | none => built
    | some target => built.withTransition source (.symbol symbol) (name target))
    declared

def description (acceptance : Acceptance) (left right : Automaton) (pair : Pair) : String :=
  name pair ++ " pairs " ++ pair.1 ++ " and " ++ pair.2 ++ ", " ++
    if accepts acceptance left right pair then "and accepts" else "and does not accept"

def construct (acceptance : Acceptance) (left right : Automaton) : Observed Automaton Automaton :=
  let pairs := reached left right
  let start := (new (name (left.starting, right.starting))).withSymbols left.alphabet.toList
  let expansions := progress (expand acceptance left right) start pairs
  { result := pairs.foldl (expand acceptance left right) start
    steps := expansions.map fun (pair, built) =>
      Step.described built (description acceptance left right pair) }

end Product

def combine (acceptance : Product.Acceptance) (left right : Automaton) :
    Except Product.Refusal (Observed Automaton Automaton) := do
  Product.requireCombinable left right
  return Product.construct acceptance left right

def product := combine .both

def sum := combine .either

end FormalLanguages.Automaton
