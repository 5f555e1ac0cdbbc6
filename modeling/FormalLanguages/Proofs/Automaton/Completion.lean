import FormalLanguages.Automaton.Completion
import FormalLanguages.Proofs.Automaton.Determinism
import FormalLanguages.Proofs.Name.Freshness

namespace FormalLanguages.Automaton

/-! # Completion

A sink takes every missing transition. It accepts nothing, so from the states that were
there before the same words are accepted. -/

variable {automaton : Automaton} {state target symbol : String} {word : List String}

theorem lacks_iff {row : SortedSet Edge} :
    lacks row symbol = true ↔ ∀ target, ¬ Edge.mk (.symbol symbol) target ∈ row := by
  simp only [lacks, SortedSet.isEmpty_iff, mem_targetsIn]

theorem mem_completedRow {alphabet : SortedSet String} {sink : String} {row : SortedSet Edge}
    {edge : Edge} :
    edge ∈ completedRow alphabet sink row ↔ edge ∈ row ∨
      ∃ symbol, symbol ∈ alphabet ∧ lacks row symbol = true ∧ edge = ⟨.symbol symbol, sink⟩ := by
  simp only [completedRow, SortedSet.mem_union, SortedSet.mem_ofList, List.mem_map, List.mem_filter,
    SortedSet.mem_toList, and_assoc, eq_comm (a := edge)]

theorem isPartial_eq_false_iff : automaton.isPartial = false ↔
    ∀ state, state ∈ automaton.states → ∀ symbol, symbol ∈ automaton.alphabet →
      ∃ target, Edge.mk (.symbol symbol) target ∈ automaton.edges state := by
  have reads : automaton.isPartial = false ↔ automaton.rows.values.all (fun row =>
      automaton.alphabet.all fun symbol => !lacks row symbol) = true := by
    simp [isPartial, SortedSet.any, SortedSet.all]
  rw [reads, all_rows_iff]
  refine forall_congr' fun state => imp_congr_right fun _ => ?_
  rw [SortedSet.all_iff]
  refine forall_congr' fun symbol => imp_congr_right fun _ => ?_
  rw [Bool.not_eq_true', ← Bool.not_eq_true, lacks_iff, Classical.not_forall_not]

theorem completed_eq_self (full : automaton.isPartial = false) :
    automaton.completed = ⟨automaton, none⟩ := by
  rw [completed, full]
  rfl

theorem sinkName_not_mem (automaton : Automaton) : ¬ automaton.sinkName ∈ automaton.states :=
  Name.freshOrSelf_not_mem emptySetName automaton.states.toList

/-- What completing does, whether there is a sink or not. -/
structure Completes (automaton : Automaton) (completed : Completed) : Prop where
  starting : completed.automaton.starting = automaton.starting
  accepting : completed.automaton.accepting = automaton.accepting
  alphabet : completed.automaton.alphabet = automaton.alphabet
  fresh : ∀ sink, completed.sink = some sink → ¬ sink ∈ automaton.states
  states : ∀ state, state ∈ completed.automaton.states ↔
    state ∈ automaton.states ∨ completed.sink = some state
  edges : ∀ state edge, edge ∈ completed.automaton.edges state ↔ edge ∈ automaton.edges state ∨
    ∃ symbol sink, completed.sink = some sink ∧ state ∈ completed.automaton.states ∧
      symbol ∈ automaton.alphabet ∧ lacks (automaton.edges state) symbol = true ∧
      edge = ⟨.symbol symbol, sink⟩
  unneeded : completed.sink = none ↔ automaton.isPartial = false

def filled (automaton : Automaton) (sink : String) : Automaton :=
  { automaton with
    rows := (automaton.rows.insert sink ∅).mapValues fun _ row =>
      completedRow automaton.alphabet sink row }

theorem mem_states_filled {sink : String} :
    state ∈ (automaton.filled sink).states ↔ state = sink ∨ state ∈ automaton.states := by
  have keys : (automaton.filled sink).states = (automaton.rows.insert sink ∅).keys :=
    SortedSet.ext fun state => by
      rw [states, filled, SortedMap.mem_keys, SortedMap.mem_keys, ← SortedMap.isSome_get?,
        ← SortedMap.isSome_get?, SortedMap.get?_mapValues, Option.isSome_map]
  rw [keys, SortedMap.mem_keys, SortedMap.mem_insert]
  rfl

theorem edges_eq_empty (unknown : ¬ state ∈ automaton.states) : automaton.edges state = ∅ :=
  SortedSet.eq_empty fun _ member =>
    unknown (mem_states_of_edge member)

theorem edges_filled {sink : String} (fresh : ¬ sink ∈ automaton.states)
    (declared : state ∈ (automaton.filled sink).states) :
    (automaton.filled sink).edges state =
      completedRow automaton.alphabet sink (automaton.edges state) := by
  rw [edges, filled, SortedMap.get?_mapValues, SortedMap.get?_insert]
  split
  case isTrue same => rw [← same, edges_eq_empty fresh, Option.map_some, Option.getD_some]
  case isFalse different =>
    have known := (mem_states_filled.mp declared).resolve_left (Ne.symm different)
    rcases mem_states_iff.mp known with ⟨row, found⟩
    rw [edges, found, Option.map_some, Option.getD_some, Option.getD_some]

theorem mem_edges_filled {sink : String} (fresh : ¬ sink ∈ automaton.states) {edge : Edge} :
    edge ∈ (automaton.filled sink).edges state ↔ edge ∈ automaton.edges state ∨
      state ∈ (automaton.filled sink).states ∧ ∃ symbol, symbol ∈ automaton.alphabet ∧
        lacks (automaton.edges state) symbol = true ∧ edge = ⟨.symbol symbol, sink⟩ := by
  by_cases declared : state ∈ (automaton.filled sink).states
  · rw [edges_filled fresh declared, mem_completedRow]
    exact or_congr_right (iff_and_self.mpr fun _ => declared)
  · have unknown : ¬ state ∈ automaton.states := fun known =>
      declared (mem_states_filled.mpr (.inr known))
    rw [edges_eq_empty declared, edges_eq_empty unknown]
    exact iff_of_false SortedSet.not_mem_empty
      fun either => either.elim SortedSet.not_mem_empty fun found => declared found.1

theorem completes_completed (automaton : Automaton) : Completes automaton automaton.completed := by
  have fresh := sinkName_not_mem automaton
  rw [completed]
  split
  case isFalse total =>
    exact ⟨rfl, rfl, rfl, by simp, by simp, by simp, by simpa using total⟩
  case isTrue lacking =>
    refine ⟨rfl, rfl, rfl, ?_, ?_, ?_, by simp [lacking]⟩
    · rintro _ ⟨⟩
      exact fresh
    · refine fun state => mem_states_filled.trans ?_
      rw [Option.some.injEq, or_comm, eq_comm]
    · intro state edge
      refine (mem_edges_filled fresh).trans (or_congr_right ?_)
      constructor
      · rintro ⟨declared, symbol, member, lacking, same⟩
        exact ⟨symbol, _, rfl, declared, member, lacking, same⟩
      · rintro ⟨symbol, _, ⟨⟩, declared, member, lacking, same⟩
        exact ⟨declared, symbol, member, lacking, same⟩

/-! ## What completing keeps -/

namespace Completes

variable {completed : Completed} (completes : Completes automaton completed)

include completes

theorem mem_states (declared : state ∈ automaton.states) :
    state ∈ completed.automaton.states :=
  (completes.states state).mpr (.inl declared)

theorem valid (valid : automaton.Valid) : completed.automaton.Valid where
  starting := completes.starting ▸ completes.mem_states valid.starting
  accepting state member :=
    completes.mem_states (valid.accepting state (completes.accepting ▸ member))
  symbols state symbol target edge := by
    rw [completes.alphabet]
    rcases (completes.edges state _).mp edge with edge | ⟨_, _, _, _, member, _, ⟨⟩⟩
    · exact valid.symbols state symbol target edge
    · exact member
  targets state label target edge := by
    rcases (completes.edges state _).mp edge with edge | ⟨_, _, found, _, _, _, ⟨⟩⟩
    · exact completes.mem_states (valid.targets state label target edge)
    · exact (completes.states target).mpr (.inr found)

theorem deterministic (deterministic : automaton.Deterministic) :
    completed.automaton.Deterministic where
  loud state target edge := by
    rcases (completes.edges state _).mp edge with edge | ⟨_, _, _, _, _, _, ⟨⟩⟩
    exact deterministic.loud state target edge
  unique state label first second toFirst toSecond := by
    rcases (completes.edges state _).mp toFirst with old | ⟨symbol, sink, found, _, _, lacking, ⟨⟩⟩
    · rcases (completes.edges state _).mp toSecond with
        another | ⟨symbol, sink, found, _, _, lacking, ⟨⟩⟩
      · exact deterministic.unique state label first second old another
      · exact absurd old (lacks_iff.mp lacking first)
    · rcases (completes.edges state _).mp toSecond with
        another | ⟨symbol, other, same, _, _, _, ⟨⟩⟩
      · exact absurd another (lacks_iff.mp lacking second)
      · exact Option.some.inj (found.symm.trans same)

theorem exists_edge (declared : state ∈ completed.automaton.states)
    (known : symbol ∈ automaton.alphabet) :
    ∃ target, Edge.mk (.symbol symbol) target ∈ completed.automaton.edges state := by
  by_cases lacking : lacks (automaton.edges state) symbol = true
  · cases found : completed.sink with
    | some sink =>
        exact ⟨sink, (completes.edges state _).mpr
          (.inr ⟨symbol, sink, found, declared, known, lacking, rfl⟩)⟩
    | none =>
        have old := ((completes.states state).mp declared).resolve_right (found ▸ nofun)
        rcases isPartial_eq_false_iff.mp (completes.unneeded.mp found) state old symbol known with
          ⟨target, edge⟩
        exact absurd edge (lacks_iff.mp lacking target)
  · rw [lacks_iff, Classical.not_forall_not] at lacking
    exact lacking.imp fun target edge => (completes.edges state _).mpr (.inl edge)

theorem total (valid : automaton.Valid) (deterministic : automaton.Deterministic) :
    completed.automaton.Total where
  valid := completes.valid valid
  deterministic := completes.deterministic deterministic
  edge _ declared _ known := completes.exists_edge declared (completes.alphabet ▸ known)

/-- No path leaves the sink, so a path to another state does not come to it. -/
theorem path_iff {source : String} (old : completed.sink ≠ some target) :
    completed.automaton.Path source word target ↔ automaton.Path source word target := by
  refine ⟨fun path => ?_, Path.mono fun state edge member =>
    (completes.edges state edge).mpr (.inl member)⟩
  induction path with
  | stay state => exact .stay state
  | skip edge _ induction =>
      rcases (completes.edges _ _).mp edge with edge | ⟨_, _, _, _, _, _, ⟨⟩⟩
      exact .skip edge (induction old)
  | @consume _ middle _ _ _ edge _ induction =>
      rcases (completes.edges _ _).mp edge with edge | ⟨_, _, found, _, _, _, ⟨⟩⟩
      · exact .consume edge (induction old)
      · have fresh : ∀ edge, ¬ edge ∈ automaton.edges middle := by
          rw [edges_eq_empty (completes.fresh middle found)]
          exact fun _ => SortedSet.not_mem_empty
        cases induction old with
        | stay => exact absurd found old
        | skip edge _ => exact absurd edge (fresh _)
        | consume edge _ => exact absurd edge (fresh _)

theorem acceptsFrom_iff (valid : automaton.Valid) :
    completed.automaton.AcceptsFrom state word ↔ automaton.AcceptsFrom state word := by
  rw [AcceptsFrom, AcceptsFrom, completes.accepting]
  refine exists_congr fun target => and_congr_right fun accepting => completes.path_iff fun found => ?_
  exact completes.fresh target found (valid.accepting target accepting)

/-- Hiding the sink leaves the states that were there before. -/
theorem filter_states :
    (completed.automaton.states.filter fun state => some state ≠ completed.sink) =
      automaton.states := by
  refine SortedSet.ext fun state => ?_
  rw [SortedSet.mem_filter, completes.states, decide_eq_true_eq]
  constructor
  · rintro ⟨declared, shown⟩
    exact declared.resolve_right (Ne.symm shown)
  · exact fun declared => ⟨.inl declared, fun same => completes.fresh state same.symm declared⟩

theorem sink_eq_none_iff : completed.sink = none ↔ completed.automaton = automaton := by
  constructor
  · intro none
    refine eq_of_members completes.starting completes.alphabet (fun state => ?_)
      (fun state => completes.accepting ▸ Iff.rfl) fun state edge => ?_
    · rw [completes.states, none]
      exact or_iff_left nofun
    · rw [completes.edges, none]
      exact or_iff_left nofun
  · intro same
    refine Option.eq_none_iff_forall_ne_some.mpr fun sink found => ?_
    exact completes.fresh sink found (same ▸ (completes.states sink).mpr (.inr found))

theorem isPartial_eq_false : completed.automaton.isPartial = false :=
  isPartial_eq_false_iff.mpr fun _ declared _ known =>
    completes.exists_edge declared (completes.alphabet ▸ known)

end Completes

/-- Completing a valid automaton gives every state a target for every symbol and changes nothing
about what is accepted from any state. It adds one new state or does nothing at all, and there is
nothing left to complete. -/
theorem completed_exact (automaton : Automaton) (valid : automaton.isValid = true) :
    ∃ result sink, automaton.completed = ⟨result, sink⟩ ∧
      (result.isValid = true ∧ result.starting = automaton.starting ∧
        result.accepting = automaton.accepting ∧ result.alphabet = automaton.alphabet) ∧
      (∀ state, state ∈ result.states → ∀ symbol, symbol ∈ automaton.alphabet →
        ∃ target, target ∈ result.targets state (.symbol symbol)) ∧
      (∀ state word, result.acceptsFrom state word = automaton.acceptsFrom state word) ∧
      (automaton.isDeterministic = true → result.isComplete = true) ∧
      (∀ state, state ∈ result.states ↔ state ∈ automaton.states ∨ sink = some state) ∧
      (∀ name, sink = some name → ¬ name ∈ automaton.states) ∧
      (sink = none ↔ result = automaton) ∧
      result.completed = ⟨result, none⟩ := by
  have sound := isValid_iff.mp valid
  have completes := completes_completed automaton
  refine ⟨automaton.completed.automaton, automaton.completed.sink, rfl,
    ⟨isValid_iff.mpr (completes.valid sound), completes.starting, completes.accepting,
      completes.alphabet⟩, fun state declared symbol known => ?_, fun state word => ?_,
    fun deterministic => ?_, completes.states, completes.fresh, completes.sink_eq_none_iff,
    completed_eq_self completes.isPartial_eq_false⟩
  · exact (completes.exists_edge declared known).imp fun _ => mem_targets.mpr
  · rw [Bool.eq_iff_iff, acceptsFrom_iff, acceptsFrom_iff]
    exact completes.acceptsFrom_iff sound
  · exact (total_iff.mp (completes.total sound (deterministic_iff.mp deterministic))).2

/-- The sink's own name is taken, and so is that name counted up once. -/
def takenSinkNames : Automaton :=
  ofRows "∅" ["∅₁"] ["x", "y"]
    [("∅", [(.symbol "x", ["∅₁"])]), ("∅₁", [(.symbol "x", ["∅"]), (.symbol "y", ["∅₁"])])]

theorem completed_takenSinkNames :
    takenSinkNames.isValid = true ∧ takenSinkNames.isDeterministic = true ∧
      ∃ result sink, takenSinkNames.completed = ⟨result, sink⟩ ∧ sink = some "∅₂" ∧
        result.isValid = true ∧ result.isComplete = true ∧
        (∀ state word, result.acceptsFrom state word = takenSinkNames.acceptsFrom state word) ∧
        (∀ state, state ∈ result.states ↔ state ∈ takenSinkNames.states ∨ sink = some state) ∧
        result ≠ takenSinkNames ∧ result.completed = ⟨result, none⟩ := by
  have valid : takenSinkNames.isValid = true := by decide
  have deterministic : takenSinkNames.isDeterministic = true := by decide
  have found : takenSinkNames.completed.sink = some "∅₂" := by decide
  rcases completed_exact takenSinkNames valid with
    ⟨result, sink, built, ⟨sound, -⟩, -, accepts, complete, states, -, unchanged, again⟩
  rw [built] at found
  refine ⟨valid, deterministic, result, sink, built, found, sound, complete deterministic, accepts,
    states, fun same => ?_, again⟩
  exact Option.some_ne_none _ (found.symm.trans (unchanged.mpr same))

end FormalLanguages.Automaton
