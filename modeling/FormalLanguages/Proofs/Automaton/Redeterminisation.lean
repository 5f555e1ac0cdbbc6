import FormalLanguages.Proofs.Automaton.Reminimisation
import FormalLanguages.Proofs.Automaton.SubsetRuns
import FormalLanguages.Proofs.Name.Spelling

namespace FormalLanguages.Automaton

open Subset

/-! # Determinising what is deterministic already

A word leads to one state of a deterministic automaton or to none, so the sets that are met have
one member each and are called like it. What is built is the automaton itself, pruned and
completed. Only the sink may be called differently, if a state that is pruned has taken its name. -/

variable {automaton : Automaton} {state symbol target : String} {word : List String}
  {set : SortedSet String}

/-! ## The name of the sink -/

/-- What the sink may be called: `∅`, or that counted up. -/
def IsSinkName (name : String) : Prop :=
  ∃ digits, name.toList = emptySetName.toList ++ digits ∧
    ∀ digit, digit ∈ digits → Name.isSubscript digit = true

theorem isSinkName_numbered (number : Nat) : IsSinkName (Name.numbered emptySetName number) :=
  ⟨_, Name.toList_numbered emptySetName number, fun _ => Name.isSubscript_of_mem_subscriptDigits⟩

theorem sinkName_withoutUnreachable
    (named : ∀ state, state ∈ automaton.states → IsSinkName state →
      ∃ word, automaton.Path automaton.starting word state) :
    automaton.withoutUnreachable.sinkName = automaton.sinkName := by
  have kept {name : String} (isSink : IsSinkName name) :
      name ∈ automaton.withoutUnreachable.states ↔ name ∈ automaton.states :=
    mem_states_withoutUnreachable.trans (and_iff_left_of_imp fun declared =>
      mem_reachableStates.mpr (named name declared isSink))
  refine Name.freshOrSelf_congr (kept ⟨[], rfl, nofun⟩) fun number => ?_
  have stem : (Name.reading emptySetName).stem = emptySetName := by decide
  rw [stem]
  exact kept (isSinkName_numbered number)

/-! ## Where a word leads -/

theorem Deterministic.path_unique (deterministic : automaton.Deterministic)
    {source first second : String} (path : automaton.Path source word first)
    (other : automaton.Path source word second) : first = second := by
  induction path with
  | stay => exact ((path_nil_iff deterministic.loud).mp other).symm
  | skip edge _ _ => exact absurd edge (deterministic.loud _ _)
  | consume edge _ induction =>
      cases other with
      | skip silent _ => exact absurd silent (deterministic.loud _ _)
      | consume another rest =>
          exact induction (deterministic.unique _ _ _ _ another edge ▸ rest)

theorem Deterministic.run_eq_singleton (deterministic : automaton.Deterministic)
    (path : automaton.Path automaton.starting word state) :
    automaton.run word = .singleton state := by
  refine SortedSet.eq_singleton fun other => mem_runFrom.trans ?_
  constructor
  · exact fun another => deterministic.path_unique another path
  · rintro rfl
    exact path

theorem Deterministic.step_of_edge (deterministic : automaton.Deterministic)
    (edge : Edge.mk (.symbol symbol) target ∈ automaton.edges state) :
    automaton.step (.singleton state) symbol = .singleton target := by
  refine step_singleton deterministic.loud fun other => ?_
  exact ⟨fun another => deterministic.unique _ _ _ _ another edge, fun same => same ▸ edge⟩

theorem Deterministic.step_eq_empty_iff (deterministic : automaton.Deterministic) :
    automaton.step (.singleton state) symbol = ∅ ↔
      ∀ target, ¬ Edge.mk (.symbol symbol) target ∈ automaton.edges state := by
  constructor
  · intro empty target edge
    have only := deterministic.step_of_edge edge
    exact SortedSet.singleton_ne_empty (only.symm.trans empty)
  · intro none
    refine SortedSet.eq_empty fun target member => ?_
    rcases mem_step.mp member with ⟨source, inside, path⟩
    rcases Path.nil_cons_iff.mp path with ⟨before, after, skipped, edge, _⟩
    rw [(path_nil_iff deterministic.loud).mp skipped, SortedSet.mem_singleton.mp inside] at edge
    exact none after edge

/-! ## The sets that are met -/

theorem Valid.mem_states_withoutUnreachable_iff (valid : automaton.Valid) :
    state ∈ automaton.withoutUnreachable.states ↔ state ∈ automaton.reachableStates := by
  refine mem_states_withoutUnreachable.trans (and_iff_right_of_imp fun reached => ?_)
  rcases mem_reachableStates.mp reached with ⟨word, path⟩
  exact valid.mem_states_of_path path valid.starting

theorem sink_completed (automaton : Automaton) :
    automaton.completed.sink = some state ↔
      automaton.isPartial = true ∧ state = automaton.sinkName := by
  rw [completed]
  split
  case isTrue lacking => simp [lacking, eq_comm]
  case isFalse total => simp [total]

namespace Subset

theorem nameOf_eq_name {sink : String} {sets : List (SortedSet String)}
    (nodup : (sink :: sets.map name).Nodup) (member : set ∈ sets) :
    nameOf (naming sink sets) sink set = name set := by
  have start : ([sink] ++ ([] : Naming).map Prod.snd ++ sets.map name).Nodup := nodup
  have named : naming sink sets = sets.map fun set => (set, name set) :=
    naming_eq.trans (Name.foldl_assign_of_nodup sets start)
  have listed : (set, nameOf (naming sink sets) sink set) ∈ naming sink sets := nameOf_mem member
  generalize nameOf (naming sink sets) sink set = given at listed ⊢
  rw [named, List.mem_map] at listed
  rcases listed with ⟨_, _, ⟨⟩⟩
  rfl

section Deterministic

variable (valid : automaton.Valid) (deterministic : automaton.Deterministic)
  (loud : ¬ Label.epsilonText ∈ automaton.alphabet)

include valid deterministic loud

theorem mem_reached_iff_singleton : set ∈ Subset.reached automaton ↔
    ∃ state, state ∈ automaton.withoutUnreachable.states ∧ set = .singleton state := by
  simp only [valid.mem_states_withoutUnreachable_iff, mem_reachableStates]
  constructor
  · intro member
    rcases exists_run_of_reachable (mem_reached_iff.mp member) with ⟨word, _, rfl⟩
    rcases nonempty_of_mem_reached member with ⟨state, inside⟩
    have path := mem_runFrom.mp inside
    exact ⟨state, ⟨word, path⟩, deterministic.run_eq_singleton path⟩
  · rintro ⟨state, ⟨word, path⟩, rfl⟩
    have visited := (run_result loud fun _ => valid.symbols_of_path path).1
    rw [deterministic.run_eq_singleton path] at visited
    exact visited.resolve_right fun ⟨empty, _⟩ => SortedSet.singleton_ne_empty empty

/-- No state is called like the sink, so the sets are called like their members. -/
theorem nodup_name_reached :
    (automaton.sinkName :: (Subset.reached automaton).map Subset.name).Nodup := by
  have one {set : SortedSet String} (member : set ∈ Subset.reached automaton) :=
    (mem_reached_iff_singleton valid deterministic loud).mp member
  refine List.nodup_cons.mpr ⟨fun taken => ?_, ?_⟩
  · rcases List.mem_map.mp taken with ⟨set, member, same⟩
    rcases one member with ⟨state, kept, rfl⟩
    change state = automaton.sinkName at same
    exact sinkName_not_mem automaton (same ▸ (mem_states_withoutUnreachable.mp kept).1)
  · refine List.Nodup.map_on (fun left inLeft right inRight same => ?_)
      (Reachable.nodup_list covers_reachable (Nat.le_of_eq length_candidates))
    rcases one inLeft with ⟨first, _, rfl⟩
    rcases one inRight with ⟨second, _, rfl⟩
    exact congrArg SortedSet.singleton same

theorem stateName_singleton (kept : state ∈ automaton.withoutUnreachable.states) :
    stateName automaton (.singleton state) = state := by
  have member : SortedSet.singleton state ∈ Subset.reached automaton :=
    (mem_reached_iff_singleton valid deterministic loud).mpr ⟨state, kept, rfl⟩
  exact nameOf_eq_name (nodup_name_reached valid deterministic loud) member

theorem needsSink_iff_isPartial : needsSink automaton (Subset.reached automaton) = true ↔
    automaton.withoutUnreachable.isPartial = true := by
  rw [needsSink_iff, ← Bool.not_eq_false, isPartial_eq_false_iff]
  push Not
  constructor
  · rintro ⟨set, member, symbol, known, empty⟩
    rcases (mem_reached_iff_singleton valid deterministic loud).mp member with ⟨state, kept, rfl⟩
    exact ⟨state, kept, symbol, known, fun target edge =>
      deterministic.step_eq_empty_iff.mp empty target (mem_edges_withoutUnreachable.mp edge).1⟩
  · rintro ⟨state, kept, symbol, known, lacking⟩
    refine ⟨_, (mem_reached_iff_singleton valid deterministic loud).mpr ⟨state, kept, rfl⟩, symbol,
      known, deterministic.step_eq_empty_iff.mpr fun target edge => lacking target ?_⟩
    exact mem_edges_withoutUnreachable.mpr ⟨edge, (mem_states_withoutUnreachable.mp kept).2⟩

theorem visited_iff : Visited automaton set ↔
    (∃ state, state ∈ automaton.withoutUnreachable.states ∧ set = .singleton state) ∨
      set = ∅ ∧ automaton.withoutUnreachable.isPartial = true := by
  rw [Visited, mem_reached_iff_singleton valid deterministic loud,
    needsSink_iff_isPartial valid deterministic loud]

/-! ## What is built from them -/

theorem starting_result_eq :
    (construct automaton).result.starting = (Minimal.prepared automaton).starting := by
  have start : initial automaton = .singleton automaton.starting :=
    closure_singleton deterministic.loud automaton.starting
  have kept : automaton.starting ∈ automaton.withoutUnreachable.states :=
    valid.withoutUnreachable.starting
  rw [starting_result, start, stateName_singleton valid deterministic loud kept]
  exact (completes_completed automaton.withoutUnreachable).starting.symm

theorem mem_accepting_result_iff : state ∈ (construct automaton).result.accepting ↔
    state ∈ (Minimal.prepared automaton).accepting := by
  have completes := completes_completed automaton.withoutUnreachable
  rw [mem_accepting_result, Minimal.prepared, completes.accepting,
    mem_accepting_withoutUnreachable]
  simp only [mem_reached_iff_singleton valid deterministic loud]
  constructor
  · rintro ⟨_, ⟨member, kept, rfl⟩, accepts, rfl⟩
    rw [stateName_singleton valid deterministic loud kept]
    rcases SortedSet.any_iff.mp accepts with ⟨other, inside, accepting⟩
    rw [SortedSet.mem_singleton.mp inside] at accepting
    exact ⟨of_decide_eq_true accepting, (mem_states_withoutUnreachable.mp kept).2⟩
  · rintro ⟨accepting, reached⟩
    have kept := valid.mem_states_withoutUnreachable_iff.mpr reached
    refine ⟨_, ⟨state, kept, rfl⟩, SortedSet.any_iff.mpr ⟨state, ?_, decide_eq_true accepting⟩,
      (stateName_singleton valid deterministic loud kept).symm⟩
    exact SortedSet.mem_singleton.mpr rfl

variable (sameSink : automaton.withoutUnreachable.sinkName = automaton.sinkName)

include sameSink

theorem mem_states_result_iff : state ∈ (construct automaton).result.states ↔
    state ∈ (Minimal.prepared automaton).states := by
  have completes := completes_completed automaton.withoutUnreachable
  rw [mem_states_result, Minimal.prepared, completes.states, sink_completed, sameSink]
  simp only [visited_iff valid deterministic loud]
  constructor
  · rintro ⟨_, ⟨member, kept, rfl⟩ | ⟨rfl, lacking⟩, rfl⟩
    · rw [stateName_singleton valid deterministic loud kept]
      exact .inl kept
    · exact .inr ⟨lacking, stateName_empty⟩
  · rintro (kept | ⟨lacking, rfl⟩)
    · exact ⟨_, .inl ⟨state, kept, rfl⟩, (stateName_singleton valid deterministic loud kept).symm⟩
    · exact ⟨∅, .inr ⟨rfl, lacking⟩, stateName_empty.symm⟩

omit valid deterministic sameSink in
theorem mem_edges_result_of_visited (visited : Visited automaton set)
    (known : symbol ∈ automaton.alphabet) (source : stateName automaton set = state)
    (led : stateName automaton (automaton.step set symbol) = target) :
    Edge.mk (.symbol symbol) target ∈ (construct automaton).result.edges state :=
  source ▸ (edge_result_iff loud visited known).mpr led.symm

theorem mem_edges_result_of_prepared {edge : Edge}
    (member : edge ∈ (Minimal.prepared automaton).edges state) :
    edge ∈ (construct automaton).result.edges state := by
  have completes := completes_completed automaton.withoutUnreachable
  have own {state : String} (kept : state ∈ automaton.withoutUnreachable.states) :
      Visited automaton (.singleton state) ∧ stateName automaton (.singleton state) = state :=
    ⟨(visited_iff valid deterministic loud).mpr (.inl ⟨state, kept, rfl⟩),
      stateName_singleton valid deterministic loud kept⟩
  rcases (completes.edges state edge).mp member with
    old | ⟨symbol, sink, found, declared, known, lacking, rfl⟩
  · have source := own (mem_states_of_edge old)
    have given := (mem_edges_withoutUnreachable.mp old).1
    rcases edge with ⟨label, target⟩
    cases label with
    | epsilon => exact absurd given (deterministic.loud state target)
    | symbol symbol =>
        refine mem_edges_result_of_visited loud source.1
          (valid.symbols state symbol target given) source.2 ?_
        rw [deterministic.step_of_edge given]
        exact (own (valid.withoutUnreachable.targets state _ target old)).2
  · -- An edge that completing adds leaves a state that has none for the symbol, or the sink.
    rcases (sink_completed _).mp found with ⟨partly, rfl⟩
    rw [sameSink]
    rcases (completes.states state).mp declared with kept | isSink
    · refine mem_edges_result_of_visited loud (own kept).1 known (own kept).2 ?_
      have none : automaton.step (.singleton state) symbol = ∅ :=
        deterministic.step_eq_empty_iff.mpr fun target edge =>
          lacks_iff.mp lacking target (mem_edges_withoutUnreachable.mpr
            ⟨edge, (mem_states_withoutUnreachable.mp kept).2⟩)
      rw [none, stateName_empty]
    · have isName : state = automaton.sinkName := ((sink_completed _).mp isSink).2.trans sameSink
      have visited : Visited automaton ∅ :=
        (visited_iff valid deterministic loud).mpr (.inr ⟨rfl, partly⟩)
      refine mem_edges_result_of_visited loud visited known (stateName_empty.trans isName.symm) ?_
      rw [step_empty, stateName_empty]

theorem construct_of_deterministic :
    (construct automaton).result = Minimal.prepared automaton := by
  have total := Minimal.total_prepared valid deterministic
  refine (total.eq_of_edges (total_determinised loud) ?_ ?_ ?_ ?_ ?_).symm
  · exact (starting_result_eq valid deterministic loud).symm
  · exact Minimal.alphabet_prepared.trans (alphabet_result loud).symm
  · exact fun state => (mem_states_result_iff valid deterministic loud sameSink).symm
  · exact fun state => (mem_accepting_result_iff valid deterministic loud).symm
  · exact fun state edge => mem_edges_result_of_prepared valid deterministic loud sameSink

end Deterministic

end Subset

/-- Determinising a deterministic automaton prunes and completes it and keeps the names of its
states, so it can be minimised before or after. Only states that are never reached must not be
called like the sink. -/
theorem determinise_deterministic (automaton : Automaton) (valid : automaton.isValid = true)
    (deterministic : automaton.isDeterministic = true)
    (loud : ¬ Label.epsilonText ∈ automaton.alphabet)
    (named : ∀ state, state ∈ automaton.states → IsSinkName state →
      ∃ word, automaton.Path automaton.starting word state) :
    ∃ observed, automaton.determinise = .ok observed ∧
      observed.result = automaton.withoutUnreachable.completed.automaton ∧
      ∃ direct after, automaton.minimise = .ok direct ∧ observed.result.minimise = .ok after ∧
        after.result = direct.result := by
  have sound := isValid_iff.mp valid
  have unique := deterministic_iff.mp deterministic
  have built : (construct automaton).result = Minimal.prepared automaton :=
    construct_of_deterministic sound unique loud (sinkName_withoutUnreachable named)
  have total : (construct automaton).result.Total := total_determinised loud
  refine ⟨construct automaton, determinise_eq valid, built, Minimal.construct automaton,
    Minimal.construct (construct automaton).result, minimise_eq valid deterministic,
    minimise_eq (isValid_iff.mpr total.valid) (deterministic_iff.mpr total.deterministic), ?_⟩
  rw [Minimal.result_construct, Minimal.result_construct, built,
    Minimal.prepared_of_reached (Minimal.total_prepared sound unique) Minimal.reached_prepared]

/-- The states `∅` and `∅₁` are reached, so the sink is counted up twice, and `lost` is not. -/
def countedUpSink : Automaton :=
  ofRows "s" ["∅"] ["x", "y"]
    [("s", [(.symbol "x", ["∅"])]), ("∅", [(.symbol "y", ["∅₁"])]), ("∅₁", [(.symbol "x", ["s"])]),
      ("lost", [(.symbol "x", ["s"]), (.symbol "y", ["lost"])])]

theorem named_countedUpSink : ∀ state, state ∈ countedUpSink.states → IsSinkName state →
    ∃ word, countedUpSink.Path countedUpSink.starting word state := by
  have others : ∀ state, state ∈ countedUpSink.states.toList →
      state ∈ countedUpSink.reachableStates ∨ state = "lost" := by decide
  intro state declared isSink
  refine mem_reachableStates.mp ((others state declared).resolve_right ?_)
  rintro rfl
  rcases isSink with ⟨digits, begins, _⟩
  cases begins

theorem determinise_countedUpSink :
    countedUpSink.isValid = true ∧ countedUpSink.isDeterministic = true ∧
      ¬ Label.epsilonText ∈ countedUpSink.alphabet ∧
      ∃ observed, countedUpSink.determinise = .ok observed ∧
        observed.result = countedUpSink.withoutUnreachable.completed.automaton ∧
        ∃ direct after, countedUpSink.minimise = .ok direct ∧
          observed.result.minimise = .ok after ∧ after.result = direct.result :=
  ⟨by decide, by decide, by decide, determinise_deterministic countedUpSink (by decide) (by decide)
    (by decide) named_countedUpSink⟩

/-- The state `∅` is never reached, and only pruning makes its name free for the sink. -/
def lostSinkName : Automaton := ofRows "s" [] ["x"] [("s", []), ("∅", [])]

example : (construct lostSinkName).result.states.toList = ["s", "∅₁"] ∧
    lostSinkName.withoutUnreachable.completed.automaton.states.toList = ["s", "∅"] := by
  decide

end FormalLanguages.Automaton
