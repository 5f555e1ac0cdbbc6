import FormalLanguages.Automaton.Path
import FormalLanguages.Automaton.Simulation
import FormalLanguages.Proofs.Automaton.Edges

namespace FormalLanguages.Automaton

/-! # Runs follow paths

The set of states that an automaton may be in after a word holds exactly the states
that a path spelling the word leads to. -/

variable {automaton : Automaton}

/-! ## Bounds of the searches -/

def edgeTargets (automaton : Automaton) : List String :=
  automaton.rows.values.flatMap fun row => row.toList.map Edge.target

theorem length_edgeTargets : automaton.edgeTargets.length = automaton.edgeCount := by
  have counted := foldl_length SortedSet.toList automaton.rows.values 0
  rw [Nat.zero_add] at counted
  rw [edgeTargets, ← List.map_flatMap, List.length_map, ← counted]
  rfl

theorem mem_edgeTargets {state : String} {edge : Edge} (member : edge ∈ automaton.edges state) :
    edge.target ∈ automaton.edgeTargets :=
  List.mem_flatMap.mpr ⟨automaton.edges state,
    SortedMap.mem_values_iff.mpr ⟨state, get?_of_mem_edges member⟩, List.mem_map_of_mem member⟩

/-! ## Closures -/

theorem Path.mono {other : Automaton}
    (edges : ∀ state edge, edge ∈ automaton.edges state → edge ∈ other.edges state)
    {source target : String} {word : List String} (path : automaton.Path source word target) :
    other.Path source word target := by
  induction path with
  | stay state => exact .stay state
  | skip edge _ induction => exact .skip (edges _ _ edge) induction
  | consume edge _ induction => exact .consume (edges _ _ edge) induction

theorem Path.trans {source middle target : String} {word : List String}
    (before : automaton.Path source word middle) (after : automaton.Path middle [] target) :
    automaton.Path source word target :=
  List.append_nil word ▸ before.append after

/-- The states that an automaton may go on to without consuming anything. -/
def silent (automaton : Automaton) (state : String) : List String :=
  (automaton.targets state .epsilon).toList

theorem mem_silent {state target : String} :
    target ∈ automaton.silent state ↔ Edge.mk .epsilon target ∈ automaton.edges state :=
  mem_targets

theorem Path.reachable {sources word : List String} {source target : String}
    (path : automaton.Path source word target) (empty : word = [])
    (reached : Reachable automaton.silent sources source) :
    Reachable automaton.silent sources target := by
  induction path with
  | stay => exact reached
  | skip edge _ induction => exact induction empty (.follow reached (mem_silent.mpr edge))
  | consume => exact absurd empty (List.cons_ne_nil _ _)

theorem reachable_silent_iff {sources : List String} {target : String} :
    Reachable automaton.silent sources target ↔
      ∃ source, source ∈ sources ∧ automaton.Path source [] target := by
  constructor
  · intro reached
    induction reached with
    | seed member => exact ⟨_, member, .stay _⟩
    | follow _ edge induction =>
        rcases induction with ⟨source, member, path⟩
        exact ⟨source, member, path.trans (.skip (mem_silent.mp edge) (.stay _))⟩
  · intro found
    rcases found with ⟨source, member, path⟩
    exact path.reachable rfl (.seed member)

theorem mem_of_reachable_silent {sources : List String} {state : String}
    (reached : Reachable automaton.silent sources state) :
    state ∈ sources ++ automaton.edgeTargets := by
  cases reached with
  | seed member => exact List.mem_append_left _ member
  | follow _ edge => exact List.mem_append_right _ (mem_edgeTargets (mem_silent.mp edge))

theorem length_append_edgeTargets (automaton : Automaton) (sources : List String) :
    (sources ++ automaton.edgeTargets).length ≤ sources.length + automaton.edgeCount :=
  Nat.le_of_eq (by rw [List.length_append, length_edgeTargets])

theorem mem_closure {sources : List String} {target : String} :
    target ∈ automaton.closure sources ↔
      ∃ source, source ∈ sources ∧ automaton.Path source [] target := by
  rw [closure, SortedSet.mem_ofList, ← reachable_silent_iff]
  exact Reachable.mem_list_iff (fun _ => mem_of_reachable_silent)
    (length_append_edgeTargets automaton sources)

/-! ## Steps and runs -/

theorem Path.nil_cons_iff {source target symbol : String} :
    automaton.Path source [symbol] target ↔
      ∃ before after, automaton.Path source [] before ∧
        Edge.mk (.symbol symbol) after ∈ automaton.edges before ∧
        automaton.Path after [] target := by
  constructor
  · intro path
    generalize whole : [symbol] = word at path
    induction path with
    | stay => cases whole
    | skip edge _ induction =>
        rcases induction whole with ⟨before, after, path, consumed, rest⟩
        exact ⟨before, after, .skip edge path, consumed, rest⟩
    | consume edge rest =>
        cases whole
        exact ⟨_, _, .stay _, edge, rest⟩
  · intro found
    rcases found with ⟨before, after, path, edge, rest⟩
    exact path.append (.consume edge rest)

theorem mem_move {current : SortedSet String} {symbol target : String} :
    target ∈ automaton.move current symbol ↔
      ∃ source, source ∈ current ∧ Edge.mk (.symbol symbol) target ∈ automaton.edges source := by
  rw [move, SortedSet.mem_flatMap]
  simp only [SortedSet.mem_toList, mem_targets]

theorem mem_step {current : SortedSet String} {symbol target : String} :
    target ∈ automaton.step current symbol ↔
      ∃ source, source ∈ current ∧ automaton.Path source [symbol] target := by
  simp only [step, mem_closure, SortedSet.mem_toList, mem_move, Path.nil_cons_iff]
  constructor
  · intro found
    rcases found with ⟨after, ⟨before, ⟨source, member, path⟩, edge⟩, rest⟩
    exact ⟨source, member, before, after, path, edge, rest⟩
  · intro found
    rcases found with ⟨source, member, before, after, path, edge, rest⟩
    exact ⟨after, ⟨before, ⟨source, member, path⟩, edge⟩, rest⟩

/-- A set that follows its own silent edges, as every set that a run goes through. -/
def Closed (automaton : Automaton) (current : SortedSet String) : Prop :=
  ∀ source, source ∈ current → ∀ target, automaton.Path source [] target → target ∈ current

theorem closed_closure (sources : List String) : automaton.Closed (automaton.closure sources) := by
  intro middle member target path
  rcases mem_closure.mp member with ⟨source, inSources, before⟩
  exact mem_closure.mpr ⟨source, inSources, before.trans path⟩

theorem mem_foldl_step {current : SortedSet String} {word : List String} {target : String}
    (closed : automaton.Closed current) :
    target ∈ word.foldl automaton.step current ↔
      ∃ source, source ∈ current ∧ automaton.Path source word target := by
  induction word generalizing current with
  | nil =>
      constructor
      · exact fun member => ⟨target, member, .stay target⟩
      · intro found
        rcases found with ⟨source, member, path⟩
        exact closed source member target path
  | cons symbol word induction =>
      have next : automaton.Closed (automaton.step current symbol) := closed_closure _
      rw [List.foldl_cons, induction next]
      simp only [mem_step]
      constructor
      · intro found
        rcases found with ⟨middle, ⟨source, member, before⟩, after⟩
        exact ⟨source, member, before.append after⟩
      · intro found
        rcases found with ⟨source, member, path⟩
        have parts : automaton.Path source ([symbol] ++ word) target := path
        rcases parts.split with ⟨middle, before, after⟩
        exact ⟨middle, ⟨source, member, before⟩, after⟩

theorem mem_runFrom {state : String} {word : List String} {target : String} :
    target ∈ automaton.runFrom state word ↔ automaton.Path state word target := by
  rw [runFrom, mem_foldl_step (closed_closure _)]
  simp only [mem_closure, List.mem_singleton]
  constructor
  · intro found
    rcases found with ⟨source, ⟨start, rfl, before⟩, after⟩
    exact before.append after
  · intro path
    exact ⟨state, ⟨state, rfl, .stay state⟩, path⟩

theorem mem_run {word : List String} {target : String} :
    target ∈ automaton.run word ↔ automaton.Path automaton.starting word target := mem_runFrom

theorem acceptsFrom_iff {state : String} {word : List String} :
    automaton.acceptsFrom state word = true ↔ automaton.AcceptsFrom state word := by
  simp only [acceptsFrom, SortedSet.any_iff, mem_runFrom, isAccepting, decide_eq_true_eq,
    AcceptsFrom, and_comm]

theorem accepts_iff {word : List String} :
    automaton.accepts word = true ↔ automaton.Accepts word := acceptsFrom_iff

/-! ## Words that cannot be read -/

theorem step_empty (symbol : String) : automaton.step ∅ symbol = ∅ := by
  apply SortedSet.eq_empty
  intro target member
  rcases mem_step.mp member with ⟨source, none, _⟩
  exact SortedSet.not_mem_empty none

theorem Valid.symbols_of_path (valid : automaton.Valid) {source target : String}
    {word : List String} (path : automaton.Path source word target) {symbol : String}
    (member : symbol ∈ word) : symbol ∈ automaton.alphabet := by
  induction path with
  | stay => cases member
  | skip _ _ induction => exact induction member
  | consume edge _ induction =>
      rcases List.mem_cons.mp member with rfl | member
      · exact valid.symbols _ _ _ edge
      · exact induction member

theorem Valid.mem_states_of_path (valid : automaton.Valid) {source target : String}
    {word : List String} (path : automaton.Path source word target)
    (declared : source ∈ automaton.states) : target ∈ automaton.states := by
  induction path with
  | stay => exact declared
  | skip edge _ induction => exact induction (valid.targets _ _ _ edge)
  | consume edge _ induction => exact induction (valid.targets _ _ _ edge)

theorem Valid.not_accepts (valid : automaton.Valid) {word : List String} {symbol : String}
    (member : symbol ∈ word) (foreign : ¬ symbol ∈ automaton.alphabet) :
    automaton.accepts word = false := by
  rw [← Bool.not_eq_true, accepts_iff]
  intro found
  rcases found with ⟨target, _, path⟩
  exact foreign (valid.symbols_of_path path member)

/-! ## Deterministic runs -/

section Loud

variable (loud : ∀ source target, ¬ Edge.mk .epsilon target ∈ automaton.edges source)

include loud

theorem path_nil_iff {source target : String} :
    automaton.Path source [] target ↔ target = source := by
  constructor
  · intro path
    cases path with
    | stay => rfl
    | skip edge _ => exact absurd edge (loud _ _)
  · rintro rfl
    exact .stay target

theorem closure_singleton (state : String) : automaton.closure [state] = .singleton state := by
  apply SortedSet.eq_singleton
  intro other
  simp only [mem_closure, List.mem_singleton, exists_eq_left, path_nil_iff loud]

/-- Without silent edges a step takes exactly one edge. -/
theorem step_singleton {state symbol target : String}
    (only : ∀ other, Edge.mk (.symbol symbol) other ∈ automaton.edges state ↔ other = target) :
    automaton.step (.singleton state) symbol = .singleton target := by
  apply SortedSet.eq_singleton
  intro other
  simp only [mem_step, SortedSet.mem_singleton, exists_eq_left, Path.nil_cons_iff,
    path_nil_iff loud, ← only]
  constructor
  · intro found
    rcases found with ⟨before, after, rfl, edge, rfl⟩
    exact edge
  · exact fun edge => ⟨state, other, rfl, edge, rfl⟩

end Loud

end FormalLanguages.Automaton
