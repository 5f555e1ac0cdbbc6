import FormalLanguages.Automaton.Label

namespace FormalLanguages

/-! A finite automaton with named states and symbols. Each declared state has a
row with its outgoing edges. Nothing forces the start state, the accepting states
or the targets of edges to be declared: an automaton that comes from a text may
mention any name, and its faults are found by looking for them. -/

structure Automaton where
  starting : String
  accepting : SortedSet String
  alphabet : SortedSet String
  rows : SortedMap String (SortedSet Edge)
deriving DecidableEq

namespace Automaton

def states (automaton : Automaton) : SortedSet String := automaton.rows.keys

def edges (automaton : Automaton) (state : String) : SortedSet Edge :=
  (automaton.rows.get? state).getD ∅

def isAccepting (automaton : Automaton) (state : String) : Bool := state ∈ automaton.accepting

def targetsIn (row : SortedSet Edge) (label : Label) : SortedSet String :=
  (row.filter fun edge => edge.label = label).map Edge.target

def targets (automaton : Automaton) (state : String) (label : Label) : SortedSet String :=
  targetsIn (automaton.edges state) label

/-- In a deterministic automaton there is at most one target to go to. -/
def target? (automaton : Automaton) (state : String) (label : Label) : Option String :=
  (automaton.targets state label).toList.head?

def labels (row : SortedSet Edge) : SortedSet Label := row.map Edge.label

def edgeCount (automaton : Automaton) : Nat :=
  automaton.rows.values.foldl (fun count row => count + row.size) 0

theorem mem_targetsIn {row : SortedSet Edge} {label : Label} {target : String} :
    target ∈ targetsIn row label ↔ Edge.mk label target ∈ row := by
  simp only [targetsIn, SortedSet.mem_map, SortedSet.mem_filter, decide_eq_true_eq]
  constructor
  · rintro ⟨edge, ⟨member, rfl⟩, rfl⟩
    exact member
  · exact fun member => ⟨⟨label, target⟩, ⟨member, rfl⟩, rfl⟩

/-! ### Building automata -/

def new (starting : String) : Automaton :=
  ⟨starting, ∅, ∅, SortedMap.singleton starting ∅⟩

/-- A row may be given as a list of target lists, one for each label. A label
that is listed again replaces what was listed for it before. -/
def rowOfColumns (columns : List (Label × List String)) : SortedSet Edge :=
  SortedSet.ofList ((SortedMap.ofList columns).entries.flatMap fun (label, targets) =>
    targets.map fun target => ⟨label, target⟩)

def ofRows (starting : String) (accepting alphabet : List String)
    (rows : List (String × List (Label × List String))) : Automaton where
  starting := starting
  accepting := SortedSet.ofList accepting
  alphabet := SortedSet.ofList alphabet
  rows := SortedMap.ofList (rows.map fun (state, columns) => (state, rowOfColumns columns))

def declareState (automaton : Automaton) (state : String) : Automaton :=
  { automaton with rows := automaton.rows.insert state (automaton.edges state) }

def withStarting (automaton : Automaton) (state : String) : Automaton :=
  { automaton with starting := state }

def withAccepting (automaton : Automaton) (state : String) : Automaton :=
  let declared := automaton.declareState state
  { declared with accepting := declared.accepting.insert state }

def withSymbol (automaton : Automaton) (symbol : String) : Automaton :=
  { automaton with alphabet := automaton.alphabet.insert symbol }

def withSymbols (automaton : Automaton) (symbols : List String) : Automaton :=
  symbols.foldl withSymbol automaton

def withLabel (automaton : Automaton) : Label → Automaton
  | .epsilon => automaton
  | .symbol name => automaton.withSymbol name

/-- A transition declares the symbol it consumes and both of its states. -/
def withTransition (automaton : Automaton) (source : String) (label : Label) (target : String) :
    Automaton :=
  let declared := (automaton.withLabel label).declareState target
  { declared with
    rows := declared.rows.insert source ((declared.edges source).insert ⟨label, target⟩) }

example : ((new "a").withTransition "a" (.symbol "x") "b").states.toList = ["a", "b"] := by decide

/-! What building does to the states, to the edges and to the alphabet. -/

section Building

variable (automaton : Automaton) (state other : String)

@[simp] theorem edges_insert (row : SortedSet Edge) :
    edges { automaton with rows := automaton.rows.insert state row } other =
      if state = other then row else automaton.edges other := by
  simp only [edges, SortedMap.get?_insert]
  split <;> rfl

@[simp] theorem edges_declareState :
    (automaton.declareState state).edges other = automaton.edges other := by
  rw [declareState, edges_insert]
  split
  · simp [*]
  · rfl

@[simp] theorem mem_states_declareState :
    other ∈ (automaton.declareState state).states ↔ other = state ∨ other ∈ automaton.states :=
  SortedMap.mem_insert automaton.rows state other _

@[simp] theorem edges_withAccepting :
    (automaton.withAccepting state).edges other = automaton.edges other :=
  edges_declareState automaton state other

@[simp] theorem mem_states_withAccepting :
    other ∈ (automaton.withAccepting state).states ↔ other = state ∨ other ∈ automaton.states :=
  mem_states_declareState automaton state other

@[simp] theorem mem_accepting_withAccepting :
    other ∈ (automaton.withAccepting state).accepting ↔
      other = state ∨ other ∈ automaton.accepting := SortedSet.mem_insert

@[simp] theorem edges_withLabel (label : Label) :
    (automaton.withLabel label).edges state = automaton.edges state := by
  cases label <;> rfl

@[simp] theorem states_withLabel (label : Label) :
    (automaton.withLabel label).states = automaton.states := by
  cases label <;> rfl

@[simp] theorem mem_alphabet_withLabel (label : Label) (symbol : String) :
    symbol ∈ (automaton.withLabel label).alphabet ↔
      label = .symbol symbol ∨ symbol ∈ automaton.alphabet := by
  cases label with
  | epsilon => simp [withLabel]
  | symbol name => simp [withLabel, withSymbol, eq_comm]

variable (source target : String) (label : Label)

theorem mem_edges_withTransition {edge : Edge} :
    edge ∈ (automaton.withTransition source label target).edges state ↔
      state = source ∧ edge = ⟨label, target⟩ ∨ edge ∈ automaton.edges state := by
  simp only [withTransition, edges_insert]
  split
  case isTrue same => simp [same]
  case isFalse different => simp [Ne.symm different]

theorem mem_states_withTransition :
    state ∈ (automaton.withTransition source label target).states ↔
      state = source ∨ state = target ∨ state ∈ automaton.states := by
  refine (SortedMap.mem_insert _ source state _).trans (or_congr_right ?_)
  rw [← states_withLabel automaton label]
  exact mem_states_declareState _ target state

theorem mem_alphabet_withTransition {symbol : String} :
    symbol ∈ (automaton.withTransition source label target).alphabet ↔
      label = .symbol symbol ∨ symbol ∈ automaton.alphabet :=
  mem_alphabet_withLabel automaton label symbol

end Building

/-! ### Kinds of automata -/

inductive Kind where
  | deterministic
  | nondeterministic
  | withEpsilon
deriving DecidableEq, Repr

def hasEpsilon (automaton : Automaton) : Bool :=
  automaton.rows.values.any fun row => row.any fun edge => edge.label = .epsilon

def hasChoice (automaton : Automaton) : Bool :=
  automaton.rows.values.any fun row => row.any fun edge => 1 < (targetsIn row edge.label).size

def kind (automaton : Automaton) : Kind :=
  if automaton.hasEpsilon then .withEpsilon
  else if automaton.hasChoice then .nondeterministic
  else .deterministic

def isDeterministic (automaton : Automaton) : Bool := automaton.kind = .deterministic

def isCompleteRow (alphabet : SortedSet String) (row : SortedSet Edge) : Bool :=
  alphabet.all fun symbol => (targetsIn row (.symbol symbol)).size = 1

/-- A complete deterministic automaton has exactly one target for every state and
symbol. -/
def isComplete (automaton : Automaton) : Bool :=
  automaton.isDeterministic && automaton.rows.values.all (isCompleteRow automaton.alphabet)

/-! ### Renaming

Where two states get the same name, the row of the later one is kept. -/

def rename (automaton : Automaton) (newName : String → String) : Automaton where
  starting := newName automaton.starting
  accepting := automaton.accepting.map newName
  alphabet := automaton.alphabet
  rows := SortedMap.ofList (automaton.rows.entries.map fun (state, row) =>
    (newName state, row.map fun edge => ⟨edge.label, newName edge.target⟩))

end Automaton

end FormalLanguages
