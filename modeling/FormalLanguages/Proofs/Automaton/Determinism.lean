import FormalLanguages.Proofs.Automaton.Runs

namespace FormalLanguages.Automaton

/-! # Deterministic automata

Each word leads to one state at most, so what is accepted from a state is told by the
targets of its edges. -/

structure Deterministic (automaton : Automaton) : Prop where
  loud : ∀ state target, ¬ Edge.mk .epsilon target ∈ automaton.edges state
  unique : ∀ state label first second, Edge.mk label first ∈ automaton.edges state →
    Edge.mk label second ∈ automaton.edges state → first = second

variable {automaton : Automaton} {state symbol target : String} {word : List String}

theorem deterministic_iff : automaton.isDeterministic = true ↔ automaton.Deterministic :=
  isDeterministic_iff.trans ⟨fun ⟨loud, unique⟩ => ⟨loud, unique⟩,
    fun ⟨loud, unique⟩ => ⟨loud, unique⟩⟩

theorem edge_of_target? {label : Label} (found : automaton.target? state label = some target) :
    Edge.mk label target ∈ automaton.edges state :=
  mem_targets.mp (List.mem_of_head? found)

theorem Deterministic.target?_eq_some_iff (deterministic : automaton.Deterministic)
    {label : Label} :
    automaton.target? state label = some target ↔
      Edge.mk label target ∈ automaton.edges state := by
  refine ⟨edge_of_target?, fun edge => ?_⟩
  have member : target ∈ automaton.targets state label := mem_targets.mpr edge
  cases found : automaton.target? state label with
  | none =>
      rw [← SortedSet.mem_toList, List.head?_eq_none_iff.mp found] at member
      cases member
  | some other =>
      exact congrArg some (deterministic.unique state label other target (edge_of_target? found) edge)

/-! ## What is accepted -/

theorem acceptsFrom_of_path {source : String} {first rest : List String}
    (path : automaton.Path source first target) (accepts : automaton.AcceptsFrom target rest) :
    automaton.AcceptsFrom source (first ++ rest) := by
  rcases accepts with ⟨last, accepting, after⟩
  exact ⟨last, accepting, path.append after⟩

theorem Deterministic.acceptsFrom_nil_iff (deterministic : automaton.Deterministic) :
    automaton.AcceptsFrom state [] ↔ state ∈ automaton.accepting := by
  simp only [AcceptsFrom, path_nil_iff deterministic.loud, exists_eq_right]

theorem Deterministic.acceptsFrom_cons_iff (deterministic : automaton.Deterministic) :
    automaton.AcceptsFrom state (symbol :: word) ↔
      ∃ target, Edge.mk (.symbol symbol) target ∈ automaton.edges state ∧
        automaton.AcceptsFrom target word := by
  constructor
  · rintro ⟨last, accepting, path⟩
    cases path with
    | skip edge _ => exact absurd edge (deterministic.loud _ _)
    | consume edge rest => exact ⟨_, edge, last, accepting, rest⟩
  · rintro ⟨target, edge, accepts⟩
    exact acceptsFrom_of_path (.consume edge (.stay target)) accepts

theorem Deterministic.acceptsFrom_cons_of_edge (deterministic : automaton.Deterministic)
    (edge : Edge.mk (.symbol symbol) target ∈ automaton.edges state) :
    automaton.AcceptsFrom state (symbol :: word) ↔ automaton.AcceptsFrom target word := by
  rw [deterministic.acceptsFrom_cons_iff]
  constructor
  · rintro ⟨other, another, accepts⟩
    exact deterministic.unique state _ other target another edge ▸ accepts
  · exact fun accepts => ⟨target, edge, accepts⟩

/-! ## Complete automata -/

/-- Every state of a sound deterministic automaton has an edge for every symbol. -/
structure Total (automaton : Automaton) : Prop where
  valid : automaton.Valid
  deterministic : automaton.Deterministic
  edge : ∀ state, state ∈ automaton.states → ∀ symbol, symbol ∈ automaton.alphabet →
    ∃ target, Edge.mk (.symbol symbol) target ∈ automaton.edges state

theorem total_iff : automaton.Total ↔ automaton.isValid = true ∧ automaton.isComplete = true := by
  rw [isComplete_iff, isValid_iff, deterministic_iff]
  exact ⟨fun total => ⟨total.valid, total.deterministic, total.edge⟩,
    fun ⟨valid, deterministic, edge⟩ => ⟨valid, deterministic, edge⟩⟩

theorem Valid.not_acceptsFrom (valid : automaton.Valid) (foreign : ¬ symbol ∈ automaton.alphabet) :
    ¬ automaton.AcceptsFrom state (symbol :: word) := by
  rintro ⟨target, _, path⟩
  exact foreign (valid.symbols_of_path path List.mem_cons_self)

end FormalLanguages.Automaton
