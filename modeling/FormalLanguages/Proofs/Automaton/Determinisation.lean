import FormalLanguages.Proofs.Automaton.Determinism
import FormalLanguages.Proofs.Automaton.SubsetResult

namespace FormalLanguages.Automaton

/-! # Determinisation preserves the language

A run of the constructed automaton goes through the names of the sets that a run of
the given one goes through. -/

namespace Subset

variable {automaton : Automaton}

/-! Everything below needs that the symbols of the alphabet are read as symbols. -/

section Loud

variable (loud : ¬ Label.epsilonText ∈ automaton.alphabet)

include loud

theorem ofText_of_mem {symbol : String} (member : symbol ∈ automaton.alphabet) :
    Label.ofText symbol = .symbol symbol :=
  if_neg fun same : symbol = Label.epsilonText => loud (same ▸ member)

theorem alphabet_result : (construct automaton).result.alphabet = automaton.alphabet := by
  have named : ∀ symbol,
      (∃ other, other ∈ automaton.alphabet ∧ Label.ofText other = .symbol symbol) →
        symbol ∈ automaton.alphabet := by
    intro symbol found
    rcases found with ⟨other, member, same⟩
    rw [ofText_of_mem loud member] at same
    exact Label.symbol.inj same ▸ member
  have inExpanded : ∀ symbol, symbol ∈ (expanded automaton).alphabet ↔
      symbol ∈ automaton.alphabet := by
    intro symbol
    refine (foldl_iff (fun built : Automaton => symbol ∈ built.alphabet) _
      (fun built set => mem_alphabet_expand) _ _).trans ?_
    rw [mem_alphabet_start]
    exact or_iff_right_of_imp fun ⟨_, _, introduced⟩ => named symbol introduced
  rw [result_construct]
  apply SortedSet.ext
  intro symbol
  split
  · rw [mem_alphabet_fan, inExpanded]
    exact or_iff_right_of_imp (named symbol)
  · exact inExpanded symbol

theorem valid_result : (construct automaton).result.Valid where
  starting := starting_result ▸ mem_states_result.mpr ⟨_, visited_initial, rfl⟩
  accepting := by
    intro state accepting
    rcases mem_accepting_result.mp accepting with ⟨set, member, _, same⟩
    exact mem_states_result.mpr ⟨set, .inl member, same⟩
  symbols := by
    intro state symbol target edge
    rcases mem_edges_result.mp edge with ⟨set, _, _, read, member, equal⟩
    rw [ofText_of_mem loud member] at equal
    rw [alphabet_result loud, Label.symbol.inj (congrArg Edge.label equal)]
    exact member
  targets := by
    intro state label target edge
    rcases mem_edges_result.mp edge with ⟨set, visited, _, read, member, equal⟩
    exact mem_states_result.mpr ⟨_, visited.step member, congrArg Edge.target equal⟩

/-- A state that stands for a set has one edge for every symbol, to where the set steps. -/
theorem edge_result_iff {set : SortedSet String} (visited : Visited automaton set)
    {symbol : String} (member : symbol ∈ automaton.alphabet) {target : String} :
    Edge.mk (.symbol symbol) target ∈
        (construct automaton).result.edges (stateName automaton set) ↔
      target = stateName automaton (automaton.step set symbol) := by
  rw [mem_edges_result]
  constructor
  · intro found
    rcases found with ⟨other, otherVisited, same, read, inAlphabet, equal⟩
    rw [ofText_of_mem loud inAlphabet] at equal
    have sameSymbol := Label.symbol.inj (congrArg Edge.label equal)
    have sameSet := stateName_injective visited otherVisited same
    rw [sameSymbol, sameSet]
    exact congrArg Edge.target equal
  · intro same
    cases same
    exact ⟨set, visited, rfl, symbol, member, by rw [ofText_of_mem loud member]⟩

theorem no_silent_edges (state target : String) :
    ¬ Edge.mk .epsilon target ∈ (construct automaton).result.edges state := by
  intro edge
  rcases mem_edges_result.mp edge with ⟨set, _, _, symbol, member, equal⟩
  rw [ofText_of_mem loud member] at equal
  cases congrArg Edge.label equal

theorem isComplete_result : (construct automaton).result.isComplete = true := by
  refine isComplete_iff.mpr ⟨isDeterministic_iff.mpr ⟨no_silent_edges loud, ?_⟩, ?_⟩
  · intro state label first second toFirst toSecond
    rcases mem_edges_result.mp toFirst with ⟨set, visited, rfl, symbol, member, equal⟩
    have sameLabel := congrArg Edge.label equal
    rw [ofText_of_mem loud member] at sameLabel
    change label = .symbol symbol at sameLabel
    subst sameLabel
    rw [(edge_result_iff loud visited member).mp toFirst,
      (edge_result_iff loud visited member).mp toSecond]
  · intro state declared symbol inAlphabet
    rcases mem_states_result.mp declared with ⟨set, visited, rfl⟩
    rw [alphabet_result loud] at inAlphabet
    exact ⟨_, (edge_result_iff loud visited inAlphabet).mpr rfl⟩

/-! ## Runs go through the names of sets -/

theorem foldl_step_result {set : SortedSet String} (visited : Visited automaton set)
    {word : List String} (known : ∀ symbol, symbol ∈ word → symbol ∈ automaton.alphabet) :
    Visited automaton (word.foldl automaton.step set) ∧
      word.foldl (construct automaton).result.step (.singleton (stateName automaton set)) =
        .singleton (stateName automaton (word.foldl automaton.step set)) := by
  induction word generalizing set with
  | nil => exact ⟨visited, rfl⟩
  | cons symbol rest induction =>
      have member := known symbol List.mem_cons_self
      have stepped : (construct automaton).result.step (.singleton (stateName automaton set))
          symbol = .singleton (stateName automaton (automaton.step set symbol)) :=
        step_singleton (no_silent_edges loud) fun _ => edge_result_iff loud visited member
      rw [List.foldl_cons, List.foldl_cons, stepped]
      exact induction (visited.step member) fun other inRest =>
        known other (List.mem_cons_of_mem _ inRest)

theorem run_result {word : List String}
    (known : ∀ symbol, symbol ∈ word → symbol ∈ automaton.alphabet) :
    Visited automaton (automaton.run word) ∧
      (construct automaton).result.run word =
        .singleton (stateName automaton (automaton.run word)) := by
  have follows := foldl_step_result loud visited_initial known
  refine ⟨follows.1, ?_⟩
  change word.foldl _ ((construct automaton).result.closure [_]) = _
  rw [starting_result, closure_singleton (no_silent_edges loud)]
  exact follows.2

theorem accepts_result (valid : automaton.Valid) (word : List String) :
    (construct automaton).result.accepts word = automaton.accepts word := by
  by_cases known : ∀ symbol, symbol ∈ word → symbol ∈ automaton.alphabet
  · rcases run_result loud known with ⟨visited, same⟩
    change ((construct automaton).result.run word).any _ = (automaton.run word).any _
    rw [same, Bool.eq_iff_iff, ← accepting_stateName_iff visited, SortedSet.any_iff]
    simp [isAccepting]
  · rcases Classical.not_forall.mp known with ⟨symbol, unknown⟩
    rcases Classical.not_imp.mp unknown with ⟨member, foreign⟩
    rw [valid.not_accepts member foreign, (valid_result loud).not_accepts member]
    rwa [alphabet_result loud]

end Loud

end Subset

theorem determinise_eq {automaton : Automaton} (valid : automaton.isValid = true) :
    automaton.determinise = .ok (Subset.construct automaton) := by
  rw [determinise, requireValid, valid]
  rfl

theorem total_determinised {automaton : Automaton}
    (loud : ¬ Label.epsilonText ∈ automaton.alphabet) :
    (Subset.construct automaton).result.Total :=
  total_iff.mpr ⟨isValid_iff.mpr (Subset.valid_result loud), Subset.isComplete_result loud⟩

/-- Determinising a valid automaton gives a valid complete deterministic automaton over
the same alphabet that accepts the same words and the same texts. -/
theorem determinise_preserves_language (automaton : Automaton)
    (valid : automaton.isValid = true) (loud : ¬ Label.epsilonText ∈ automaton.alphabet) :
    ∃ observed, automaton.determinise = .ok observed ∧
      observed.result.isValid = true ∧
      observed.result.alphabet = automaton.alphabet ∧
      observed.result.isComplete = true ∧
      (∀ word, observed.result.accepts word = automaton.accepts word) ∧
      ∀ text, observed.result.acceptsText text = automaton.acceptsText text := by
  have sameAlphabet := Subset.alphabet_result loud
  have sameWords := Subset.accepts_result loud (isValid_iff.mp valid)
  refine ⟨Subset.construct automaton, ?_, isValid_iff.mpr (Subset.valid_result loud),
    sameAlphabet, Subset.isComplete_result loud, sameWords, fun text => ?_⟩
  · simp only [determinise, requireValid, valid, if_true]
    rfl
  · rw [acceptsText, acceptsText, split, split, sameAlphabet]
    exact sameWords _

/-- A silent cycle, a state that is called like the set of the others, and a set that
is left for the sink. -/
def collidingNames : Automaton :=
  ofRows "a" ["a,b,c"] ["x", "y"]
    [("a", [(.symbol "x", ["a", "b"]), (.symbol "y", ["a,b,c"])]),
      ("b", [(.epsilon, ["c"])]),
      ("c", [(.epsilon, ["b"])]),
      ("a,b,c", [])]

theorem determinise_collidingNames :
    collidingNames.isValid = true ∧ ¬ Label.epsilonText ∈ collidingNames.alphabet ∧
      ∃ observed, collidingNames.determinise = .ok observed ∧
        observed.result.isValid = true ∧
        observed.result.alphabet = collidingNames.alphabet ∧
        observed.result.isComplete = true ∧
        (∀ word, observed.result.accepts word = collidingNames.accepts word) ∧
        ∀ text, observed.result.acceptsText text = collidingNames.acceptsText text :=
  ⟨by decide, by decide, determinise_preserves_language collidingNames (by decide) (by decide)⟩

end FormalLanguages.Automaton
