import FormalLanguages.Proofs.Automaton.Completion

namespace FormalLanguages.Automaton

/-! # Leaving out unreachable states

The states that are kept are those that some word leads to. No path from the start goes
through any other. -/

variable {automaton : Automaton} {source state target : String} {word : List String}

theorem mem_followers :
    target ∈ automaton.followers state ↔ ∃ label, Edge.mk label target ∈ automaton.edges state := by
  rw [followers, List.mem_map]
  constructor
  · rintro ⟨⟨label, _⟩, edge, rfl⟩
    exact ⟨label, edge⟩
  · rintro ⟨label, edge⟩
    exact ⟨⟨label, target⟩, edge, rfl⟩

theorem exists_path_of_edge {label : Label} (edge : Edge.mk label target ∈ automaton.edges source) :
    ∃ word, automaton.Path source word target := by
  cases label with
  | epsilon => exact ⟨[], .skip edge (.stay target)⟩
  | symbol name => exact ⟨[name], .consume edge (.stay target)⟩

theorem reachable_of_path (path : automaton.Path source word target)
    (reached : Reachable automaton.followers [automaton.starting] source) :
    Reachable automaton.followers [automaton.starting] target := by
  induction path with
  | stay => exact reached
  | skip edge _ induction => exact induction (.follow reached (mem_followers.mpr ⟨_, edge⟩))
  | consume edge _ induction => exact induction (.follow reached (mem_followers.mpr ⟨_, edge⟩))

theorem reachable_followers_iff : Reachable automaton.followers [automaton.starting] state ↔
    ∃ word, automaton.Path automaton.starting word state := by
  constructor
  · intro reached
    induction reached with
    | seed member => exact ⟨[], List.mem_singleton.mp member ▸ .stay _⟩
    | follow _ member induction =>
        rcases induction with ⟨before, path⟩
        rcases mem_followers.mp member with ⟨label, edge⟩
        rcases exists_path_of_edge edge with ⟨after, rest⟩
        exact ⟨before ++ after, path.append rest⟩
  · rintro ⟨word, path⟩
    exact reachable_of_path path (.seed (List.mem_singleton_self _))

theorem mem_reachableStates :
    state ∈ automaton.reachableStates ↔ ∃ word, automaton.Path automaton.starting word state := by
  have covers : ∀ state, Reachable automaton.followers [automaton.starting] state →
      state ∈ [automaton.starting] ++ automaton.edgeTargets := by
    intro state reached
    cases reached with
    | seed member => exact List.mem_append_left _ member
    | follow _ member =>
        rcases mem_followers.mp member with ⟨label, edge⟩
        exact List.mem_append_right _ (mem_edgeTargets edge)
  exact (Reachable.mem_list_iff covers
    (length_append_edgeTargets automaton [automaton.starting])).trans reachable_followers_iff

theorem mem_reachableStates_iff_run :
    state ∈ automaton.reachableStates ↔ ∃ word, state ∈ automaton.run word := by
  simp only [mem_reachableStates, mem_run]

/-! ## What is kept -/

theorem mem_accepting_withoutUnreachable : state ∈ automaton.withoutUnreachable.accepting ↔
    state ∈ automaton.accepting ∧ state ∈ automaton.reachableStates := by
  rw [withoutUnreachable, SortedSet.mem_filter, decide_eq_true_eq]

theorem mem_states_withoutUnreachable : state ∈ automaton.withoutUnreachable.states ↔
    state ∈ automaton.states ∧ state ∈ automaton.reachableStates := by
  rw [states, withoutUnreachable, SortedMap.keys_filter automaton.rows
    (fun state => decide (state ∈ automaton.reachableStates)), SortedSet.mem_filter,
    decide_eq_true_eq]
  rfl

theorem mem_edges_withoutUnreachable {edge : Edge} :
    edge ∈ automaton.withoutUnreachable.edges state ↔
      edge ∈ automaton.edges state ∧ state ∈ automaton.reachableStates := by
  constructor
  · intro member
    have kept : automaton.withoutUnreachable.rows.get? state = some _ := get?_of_mem_edges member
    rcases SortedMap.get?_filter_eq_some_iff.mp kept with ⟨found, reached⟩
    exact ⟨edges_of_get? found ▸ member, of_decide_eq_true reached⟩
  · rintro ⟨member, reached⟩
    have kept : automaton.withoutUnreachable.rows.get? state = some (automaton.edges state) :=
      SortedMap.get?_filter_eq_some_iff.mpr ⟨get?_of_mem_edges member, decide_eq_true reached⟩
    exact edges_of_get? kept ▸ member

theorem reachable_target {label : Label} (edge : Edge.mk label target ∈ automaton.edges state)
    (reached : state ∈ automaton.reachableStates) : target ∈ automaton.reachableStates := by
  rcases mem_reachableStates.mp reached with ⟨before, path⟩
  rcases exists_path_of_edge edge with ⟨after, rest⟩
  exact mem_reachableStates.mpr ⟨before ++ after, path.append rest⟩

theorem starting_reachable : automaton.starting ∈ automaton.reachableStates :=
  mem_reachableStates.mpr ⟨[], .stay _⟩

theorem Valid.withoutUnreachable (valid : automaton.Valid) : automaton.withoutUnreachable.Valid where
  starting := mem_states_withoutUnreachable.mpr ⟨valid.starting, starting_reachable⟩
  accepting state member := by
    rcases mem_accepting_withoutUnreachable.mp member with ⟨accepting, reached⟩
    exact mem_states_withoutUnreachable.mpr ⟨valid.accepting state accepting, reached⟩
  symbols state symbol target edge :=
    valid.symbols state symbol target (mem_edges_withoutUnreachable.mp edge).1
  targets state label target edge := by
    rcases mem_edges_withoutUnreachable.mp edge with ⟨edge, reached⟩
    exact mem_states_withoutUnreachable.mpr
      ⟨valid.targets state label target edge, reachable_target edge reached⟩

theorem Deterministic.withoutUnreachable (deterministic : automaton.Deterministic) :
    automaton.withoutUnreachable.Deterministic where
  loud state target edge := deterministic.loud state target (mem_edges_withoutUnreachable.mp edge).1
  unique state label first second toFirst toSecond :=
    deterministic.unique state label first second (mem_edges_withoutUnreachable.mp toFirst).1
      (mem_edges_withoutUnreachable.mp toSecond).1

theorem path_withoutUnreachable_iff (reached : source ∈ automaton.reachableStates) :
    automaton.withoutUnreachable.Path source word target ↔ automaton.Path source word target := by
  refine ⟨Path.mono fun _ _ edge => (mem_edges_withoutUnreachable.mp edge).1, fun path => ?_⟩
  induction path with
  | stay state => exact .stay state
  | skip edge _ induction =>
      exact .skip (mem_edges_withoutUnreachable.mpr ⟨edge, reached⟩)
        (induction (reachable_target edge reached))
  | consume edge _ induction =>
      exact .consume (mem_edges_withoutUnreachable.mpr ⟨edge, reached⟩)
        (induction (reachable_target edge reached))

theorem accepts_withoutUnreachable_iff :
    automaton.withoutUnreachable.Accepts word ↔ automaton.Accepts word := by
  refine exists_congr fun target => ?_
  rw [mem_accepting_withoutUnreachable]
  constructor
  · rintro ⟨⟨accepting, _⟩, path⟩
    exact ⟨accepting, (path_withoutUnreachable_iff starting_reachable).mp path⟩
  · rintro ⟨accepting, path⟩
    exact ⟨⟨accepting, mem_reachableStates.mpr ⟨word, path⟩⟩,
      (path_withoutUnreachable_iff starting_reachable).mpr path⟩

theorem mem_reachableStates_withoutUnreachable :
    state ∈ automaton.withoutUnreachable.reachableStates ↔ state ∈ automaton.reachableStates := by
  rw [mem_reachableStates, mem_reachableStates]
  exact exists_congr fun word => path_withoutUnreachable_iff starting_reachable

/-- Some word leads to every state. -/
def Reached (automaton : Automaton) : Prop :=
  ∀ state, state ∈ automaton.states → ∃ word, automaton.Path automaton.starting word state

theorem reached_withoutUnreachable (automaton : Automaton) :
    automaton.withoutUnreachable.Reached := fun _ declared =>
  mem_reachableStates.mp (mem_reachableStates_withoutUnreachable.mpr
    (mem_states_withoutUnreachable.mp declared).2)

/-- A sink is only added where an edge leads to it. -/
theorem Completes.reached {completed : Completed} (completes : Completes automaton completed)
    (reached : automaton.Reached) : completed.automaton.Reached := by
  have old {state : String} (declared : state ∈ automaton.states) :
      ∃ word, completed.automaton.Path completed.automaton.starting word state := by
    rcases reached state declared with ⟨word, path⟩
    exact ⟨word, completes.starting ▸ path.mono fun _ _ edge => (completes.edges _ _).mpr (.inl edge)⟩
  intro state declared
  rcases (completes.states state).mp declared with before | sink
  · exact old before
  · have needed : ¬ automaton.isPartial = false := fun total => by
      rw [completes.unneeded.mpr total] at sink
      cases sink
    rw [isPartial_eq_false_iff] at needed
    push Not at needed
    rcases needed with ⟨source, before, symbol, known, lacking⟩
    rcases old before with ⟨word, path⟩
    have edge : Edge.mk (.symbol symbol) state ∈ completed.automaton.edges source :=
      (completes.edges source _).mpr (.inr ⟨symbol, state, sink, completes.mem_states before, known,
        lacks_iff.mpr lacking, rfl⟩)
    exact ⟨word ++ [symbol], path.append (.consume edge (.stay state))⟩

/-! ## What pruning leaves alone -/

theorem edges_withoutUnreachable (kept : state ∈ automaton.withoutUnreachable.states) :
    automaton.withoutUnreachable.edges state = automaton.edges state :=
  SortedSet.ext fun _ => mem_edges_withoutUnreachable.trans
    (and_iff_left (mem_states_withoutUnreachable.mp kept).2)

theorem run_withoutUnreachable (word : List String) :
    automaton.withoutUnreachable.run word = automaton.run word := by
  refine SortedSet.ext fun state => ?_
  rw [mem_run, mem_run]
  exact path_withoutUnreachable_iff starting_reachable

/-- An automaton in which everything that counts is reached has nothing to prune. Accepting states
are asked for as well, since they need not be declared. -/
theorem withoutUnreachable_eq_self
    (declared : ∀ state, state ∈ automaton.states → state ∈ automaton.reachableStates)
    (accepting : ∀ state, state ∈ automaton.accepting → state ∈ automaton.reachableStates) :
    automaton.withoutUnreachable = automaton := by
  refine eq_of_members rfl rfl (fun state => ?_) (fun state => ?_) fun state edge => ?_
  · exact mem_states_withoutUnreachable.trans (and_iff_left_of_imp (declared state))
  · exact mem_accepting_withoutUnreachable.trans (and_iff_left_of_imp (accepting state))
  · exact mem_edges_withoutUnreachable.trans
      (and_iff_left_of_imp fun member => declared state (mem_states_of_edge member))

/-- Pruning keeps exactly the states that some word leads to, with all of their edges, so every
word leads to the same states as before. What is left cannot be pruned any more. -/
theorem withoutUnreachable_exact (automaton : Automaton) :
    (∀ state, state ∈ automaton.withoutUnreachable.states ↔
      state ∈ automaton.states ∧ ∃ word, state ∈ automaton.run word) ∧
    (∀ state, state ∈ automaton.withoutUnreachable.accepting ↔
      state ∈ automaton.accepting ∧ ∃ word, state ∈ automaton.run word) ∧
    automaton.withoutUnreachable.starting = automaton.starting ∧
    automaton.withoutUnreachable.alphabet = automaton.alphabet ∧
    (∀ state, state ∈ automaton.withoutUnreachable.states →
      automaton.withoutUnreachable.edges state = automaton.edges state) ∧
    (∀ word, automaton.withoutUnreachable.run word = automaton.run word) ∧
    automaton.withoutUnreachable.withoutUnreachable = automaton.withoutUnreachable := by
  refine ⟨fun state => ?_, fun state => ?_, rfl, rfl, fun _ => edges_withoutUnreachable,
    run_withoutUnreachable, ?_⟩
  · rw [mem_states_withoutUnreachable, mem_reachableStates_iff_run]
  · rw [mem_accepting_withoutUnreachable, mem_reachableStates_iff_run]
  · refine withoutUnreachable_eq_self (fun state kept => ?_) fun state kept => ?_
    · exact mem_reachableStates_withoutUnreachable.mpr (mem_states_withoutUnreachable.mp kept).2
    · exact mem_reachableStates_withoutUnreachable.mpr
        (mem_accepting_withoutUnreachable.mp kept).2

/-- The state `end` is reached but not declared, and `lost` is declared but not reached. -/
def undeclaredEnd : Automaton :=
  ofRows "s" ["end", "lost"] ["x"]
    [("s", [(.epsilon, ["end"]), (.symbol "x", ["s"])]), ("lost", [(.symbol "x", ["s"])])]

example : undeclaredEnd.withoutUnreachable.states.toList = ["s"] ∧
    undeclaredEnd.withoutUnreachable.accepting.toList = ["end"] ∧
    undeclaredEnd.withoutUnreachable.run ["x"] = undeclaredEnd.run ["x"] := by
  decide

end FormalLanguages.Automaton
