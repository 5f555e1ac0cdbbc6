import FormalLanguages.Automaton.Fault
import FormalLanguages.Proofs.Collection.Members

namespace FormalLanguages.Automaton

/-! Checks that walk over the rows of an automaton, said by its single edges. -/

variable {automaton : Automaton}

theorem mem_states_iff {state : String} :
    state ∈ automaton.states ↔ ∃ row, automaton.rows.get? state = some row := by
  rw [states, SortedMap.mem_keys, ← SortedMap.isSome_get?, Option.isSome_iff_exists]

theorem edges_of_get? {state : String} {row : SortedSet Edge}
    (found : automaton.rows.get? state = some row) : automaton.edges state = row := by
  rw [edges, found, Option.getD_some]

theorem get?_of_mem_edges {state : String} {edge : Edge} (member : edge ∈ automaton.edges state) :
    automaton.rows.get? state = some (automaton.edges state) := by
  cases found : automaton.rows.get? state with
  | none => simp [edges, found] at member
  | some row => rw [edges_of_get? found]

theorem mem_states_of_edge {state : String} {edge : Edge} (member : edge ∈ automaton.edges state) :
    state ∈ automaton.states :=
  mem_states_iff.mpr ⟨_, get?_of_mem_edges member⟩

theorem mem_targets {state target : String} {label : Label} :
    target ∈ automaton.targets state label ↔ Edge.mk label target ∈ automaton.edges state :=
  mem_targetsIn

theorem mem_labels {row : SortedSet Edge} {label : Label} :
    label ∈ labels row ↔ ∃ target, Edge.mk label target ∈ row := by
  rw [labels, SortedSet.mem_map]
  constructor
  · intro found
    rcases found with ⟨edge, member, rfl⟩
    exact ⟨edge.target, member⟩
  · intro found
    rcases found with ⟨target, member⟩
    exact ⟨⟨label, target⟩, member, rfl⟩

/-- A test of all rows is a test of the edges of all declared states. -/
theorem all_rows_iff {test : SortedSet Edge → Bool} :
    automaton.rows.values.all test = true ↔
      ∀ state, state ∈ automaton.states → test (automaton.edges state) = true := by
  rw [List.all_eq_true]
  constructor
  · intro all state declared
    rcases mem_states_iff.mp declared with ⟨row, found⟩
    rw [edges_of_get? found]
    exact all row (SortedMap.mem_values_iff.mpr ⟨state, found⟩)
  · intro all row member
    rcases SortedMap.mem_values_iff.mp member with ⟨state, found⟩
    rw [← edges_of_get? found]
    exact all state (mem_states_iff.mpr ⟨row, found⟩)

theorem any_rows_iff {test : Edge → Bool} :
    (automaton.rows.values.any fun row => row.any test) = true ↔
      ∃ state edge, edge ∈ automaton.edges state ∧ test edge = true := by
  rw [List.any_eq_true]
  constructor
  · intro found
    rcases found with ⟨row, member, holds⟩
    rcases SortedMap.mem_values_iff.mp member with ⟨state, found⟩
    rcases SortedSet.any_iff.mp holds with ⟨edge, inside, holds⟩
    exact ⟨state, edge, edges_of_get? found ▸ inside, holds⟩
  · intro found
    rcases found with ⟨state, edge, member, holds⟩
    exact ⟨automaton.edges state, SortedMap.mem_values_iff.mpr ⟨state, get?_of_mem_edges member⟩,
      SortedSet.any_iff.mpr ⟨edge, member, holds⟩⟩

/-! ### What an automaton is made of -/

theorem get?_rows (automaton : Automaton) (state : String) :
    automaton.rows.get? state =
      if state ∈ automaton.states then some (automaton.edges state) else none := by
  split
  case isTrue declared =>
    rcases mem_states_iff.mp declared with ⟨row, found⟩
    rw [found, edges_of_get? found]
  case isFalse unknown =>
    exact Option.eq_none_iff_forall_ne_some.mpr fun row found =>
      unknown (mem_states_iff.mpr ⟨row, found⟩)

/-- Nothing but the members of its parts tells an automaton. -/
theorem eq_of_members {first second : Automaton} (starting : first.starting = second.starting)
    (alphabet : first.alphabet = second.alphabet)
    (states : ∀ state, state ∈ first.states ↔ state ∈ second.states)
    (accepting : ∀ state, state ∈ first.accepting ↔ state ∈ second.accepting)
    (edges : ∀ state edge, edge ∈ first.edges state ↔ edge ∈ second.edges state) :
    first = second := by
  have accepting : first.accepting = second.accepting := SortedSet.ext accepting
  have rows : first.rows = second.rows := by
    refine SortedMap.ext fun state => ?_
    have row : first.edges state = second.edges state := SortedSet.ext (edges state)
    rw [get?_rows, get?_rows, row]
    exact if_congr (states state) rfl rfl
  cases first
  cases second
  cases starting
  cases accepting
  cases alphabet
  cases rows
  rfl

/-! ### Starting to build -/

theorem not_mem_edges_new (start state : String) (edge : Edge) :
    ¬ edge ∈ (new start).edges state := by
  rw [edges, new, SortedMap.get?, SortedMap.singleton, Entries.lookup]
  split <;> exact SortedSet.not_mem_empty

theorem withSymbols_eq (built : Automaton) (symbols : List String) :
    built.withSymbols symbols = { built with
      alphabet := symbols.foldl (fun known symbol => known.insert symbol) built.alphabet } := by
  induction symbols generalizing built with
  | nil => rfl
  | cons symbol rest induction => exact induction (built.withSymbol symbol)

theorem mem_alphabet_withSymbols {built : Automaton} {symbols : List String} {symbol : String} :
    symbol ∈ (built.withSymbols symbols).alphabet ↔ symbol ∈ symbols ∨ symbol ∈ built.alphabet := by
  rw [withSymbols_eq]
  refine (foldl_iff (fun known : SortedSet String => symbol ∈ known) (fun other => symbol = other)
    (fun known other => SortedSet.mem_insert) _ _).trans (or_congr_left ?_)
  simp

/-! ### Validity -/

structure Valid (automaton : Automaton) : Prop where
  starting : automaton.starting ∈ automaton.states
  accepting : ∀ state, state ∈ automaton.accepting → state ∈ automaton.states
  symbols : ∀ state symbol target,
    Edge.mk (.symbol symbol) target ∈ automaton.edges state → symbol ∈ automaton.alphabet
  targets : ∀ state label target,
    Edge.mk label target ∈ automaton.edges state → target ∈ automaton.states

theorem labelFaults_eq_nil_iff {state : String} {row : SortedSet Edge} {label : Label} :
    automaton.labelFaults state row label = [] ↔
      (∀ symbol, label = .symbol symbol → symbol ∈ automaton.alphabet) ∧
        ∀ target, Edge.mk label target ∈ row → target ∈ automaton.states := by
  simp only [labelFaults, List.append_eq_nil_iff, List.map_eq_nil_iff, List.filter_eq_nil_iff,
    decide_not, Bool.not_eq_true', decide_eq_false_iff_not, Classical.not_not,
    SortedSet.mem_toList, mem_targetsIn]
  apply and_congr_left
  intro _
  cases label <;> simp [Label.symbol?]

theorem rowFaults_eq_nil_iff {state : String} {row : SortedSet Edge} :
    automaton.rowFaults state row = [] ↔
      (∀ symbol target, Edge.mk (.symbol symbol) target ∈ row → symbol ∈ automaton.alphabet) ∧
        ∀ label target, Edge.mk label target ∈ row → target ∈ automaton.states := by
  simp only [rowFaults, List.flatMap_eq_nil_iff, labelFaults_eq_nil_iff, SortedSet.mem_toList,
    mem_labels]
  constructor
  · intro all
    exact ⟨fun symbol target edge => (all _ ⟨target, edge⟩).1 symbol rfl,
      fun label target edge => (all label ⟨target, edge⟩).2 target edge⟩
  · intro found label known
    rcases found with ⟨symbols, targets⟩
    rcases known with ⟨target, edge⟩
    exact ⟨fun symbol same => symbols symbol target (same ▸ edge), targets label⟩

/-- No fault is found exactly if every state and symbol that is mentioned is declared. -/
theorem isValid_iff : automaton.isValid = true ↔ automaton.Valid := by
  simp only [isValid, faults, List.isEmpty_iff, List.append_eq_nil_iff, List.map_eq_nil_iff,
    List.filter_eq_nil_iff, List.mem_singleton, forall_eq, decide_not, Bool.not_eq_true',
    decide_eq_false_iff_not, Classical.not_not, SortedSet.mem_toList, List.flatMap_eq_nil_iff,
    Prod.forall, rowFaults_eq_nil_iff, ← SortedMap.get?_eq_some_iff]
  constructor
  · intro found
    rcases found with ⟨⟨starting, accepting⟩, rows⟩
    refine ⟨starting, accepting, fun state symbol target edge => ?_,
      fun state label target edge => ?_⟩
    · exact (rows state _ (get?_of_mem_edges edge)).1 symbol target edge
    · exact (rows state _ (get?_of_mem_edges edge)).2 label target edge
  · intro found
    rcases found with ⟨starting, accepting, symbols, targets⟩
    refine ⟨⟨starting, accepting⟩, fun state row found => ?_⟩
    rw [← edges_of_get? found]
    exact ⟨symbols state, targets state⟩

/-! ### Determinism and completeness -/

theorem hasEpsilon_iff : automaton.hasEpsilon = true ↔
    ∃ state target, Edge.mk .epsilon target ∈ automaton.edges state := by
  rw [hasEpsilon, any_rows_iff]
  simp only [decide_eq_true_eq]
  constructor
  · intro found
    rcases found with ⟨state, ⟨_, target⟩, member, rfl⟩
    exact ⟨state, target, member⟩
  · intro found
    rcases found with ⟨state, target, member⟩
    exact ⟨state, _, member, rfl⟩

theorem hasChoice_iff : automaton.hasChoice = true ↔
    ∃ state label first second, Edge.mk label first ∈ automaton.edges state ∧
      Edge.mk label second ∈ automaton.edges state ∧ first ≠ second := by
  simp only [hasChoice, List.any_eq_true, SortedSet.any_iff, decide_eq_true_eq,
    SortedSet.one_lt_size_iff, mem_targetsIn]
  constructor
  · intro found
    rcases found with ⟨row, member, edge, _, first, second, toFirst, toSecond, different⟩
    rcases SortedMap.mem_values_iff.mp member with ⟨state, found⟩
    rw [← edges_of_get? found] at toFirst toSecond
    exact ⟨state, edge.label, first, second, toFirst, toSecond, different⟩
  · intro found
    rcases found with ⟨state, label, first, second, toFirst, toSecond, different⟩
    exact ⟨_, SortedMap.mem_values_iff.mpr ⟨state, get?_of_mem_edges toFirst⟩, _, toFirst,
      first, second, toFirst, toSecond, different⟩

theorem isDeterministic_iff : automaton.isDeterministic = true ↔
    (∀ state target, ¬ Edge.mk .epsilon target ∈ automaton.edges state) ∧
      ∀ state label first second, Edge.mk label first ∈ automaton.edges state →
        Edge.mk label second ∈ automaton.edges state → first = second := by
  have both : automaton.isDeterministic = true ↔
      ¬ automaton.hasEpsilon = true ∧ ¬ automaton.hasChoice = true := by
    cases skips : automaton.hasEpsilon <;> cases chooses : automaton.hasChoice <;>
      simp [isDeterministic, kind, skips, chooses]
  rw [both, hasEpsilon_iff, hasChoice_iff]
  apply and_congr
  · exact ⟨fun none state target member => none ⟨state, target, member⟩,
      fun none ⟨state, target, member⟩ => none state target member⟩
  · constructor
    · intro none state label first second toFirst toSecond
      exact Classical.byContradiction fun different =>
        none ⟨state, label, first, second, toFirst, toSecond, different⟩
    · intro unique found
      rcases found with ⟨state, label, first, second, toFirst, toSecond, different⟩
      exact different (unique state label first second toFirst toSecond)

theorem isComplete_iff : automaton.isComplete = true ↔
    automaton.isDeterministic = true ∧
      ∀ state, state ∈ automaton.states → ∀ symbol, symbol ∈ automaton.alphabet →
        ∃ target, Edge.mk (.symbol symbol) target ∈ automaton.edges state := by
  rw [isComplete, Bool.and_eq_true, all_rows_iff]
  refine and_congr_right fun deterministic => forall_congr' fun state => ?_
  apply imp_congr_right
  intro _
  rw [isCompleteRow, SortedSet.all_iff]
  refine forall_congr' fun symbol => imp_congr_right fun _ => ?_
  rw [decide_eq_true_eq, SortedSet.size_eq_one_iff]
  simp only [mem_targetsIn]
  constructor
  · intro found
    rcases found with ⟨target, only⟩
    exact ⟨target, (only target).mpr rfl⟩
  · intro found
    rcases found with ⟨target, edge⟩
    refine ⟨target, fun other => ⟨fun another => ?_, fun same => same ▸ edge⟩⟩
    exact (isDeterministic_iff.mp deterministic).2 state _ other target another edge

end FormalLanguages.Automaton
