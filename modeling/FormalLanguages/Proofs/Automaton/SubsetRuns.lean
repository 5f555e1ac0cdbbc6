import FormalLanguages.Proofs.Automaton.Determinisation

namespace FormalLanguages.Automaton

/-! # The states of a determinised automaton

A word leads to one state, which stands for the set of states that the word leads to in the
given automaton. No two sets share a state, and there is a state only where some word leads. -/

variable {automaton : Automaton}

/-- Words over the alphabet. -/
def Knows (automaton : Automaton) (word : List String) : Prop :=
  ∀ symbol, symbol ∈ word → symbol ∈ automaton.alphabet

theorem Knows.concat {word : List String} {symbol : String} (knows : automaton.Knows word)
    (member : symbol ∈ automaton.alphabet) : automaton.Knows (word ++ [symbol]) :=
  List.forall_mem_append.mpr ⟨knows, List.forall_mem_singleton.mpr member⟩

theorem run_concat (automaton : Automaton) (word : List String) (symbol : String) :
    automaton.run (word ++ [symbol]) = automaton.step (automaton.run word) symbol :=
  List.foldl_concat ..

namespace Subset

variable {set : SortedSet String}

theorem exists_run_of_reachable
    (reached : Reachable (successors automaton) [initial automaton] set) :
    ∃ word, automaton.Knows word ∧ automaton.run word = set := by
  induction reached with
  | seed member => exact ⟨[], nofun, (List.mem_singleton.mp member).symm⟩
  | follow _ member induction =>
      rcases induction with ⟨word, knows, rfl⟩
      rcases mem_successors.mp member with ⟨⟨symbol, inAlphabet, rfl⟩, _⟩
      exact ⟨word ++ [symbol], knows.concat inAlphabet, run_concat automaton word symbol⟩

/-- Only sets that some word leads to are visited, the empty one included. -/
theorem Visited.exists_run (visited : Visited automaton set) :
    ∃ word, automaton.Knows word ∧ automaton.run word = set := by
  rcases visited with member | ⟨rfl, needed⟩
  · exact exists_run_of_reachable (mem_reached_iff.mp member)
  · rcases needsSink_iff.mp needed with ⟨before, member, symbol, inAlphabet, empty⟩
    rcases exists_run_of_reachable (mem_reached_iff.mp member) with ⟨word, knows, rfl⟩
    exact ⟨word ++ [symbol], knows.concat inAlphabet,
      (run_concat automaton word symbol).trans empty⟩

end Subset

open Subset

/-- Determinising a valid automaton gives a state for each set of states that a word over the
alphabet leads to, and no other state. A word leads to the state of its set alone. -/
theorem determinise_states_exact (automaton : Automaton)
    (valid : automaton.isValid = true) (loud : ¬ Label.epsilonText ∈ automaton.alphabet) :
    ∃ observed, automaton.determinise = .ok observed ∧
      (∀ word, automaton.Knows word → ∃ state, observed.result.run word = .singleton state) ∧
      (∀ left right, automaton.Knows left → automaton.Knows right →
        (observed.result.run left = observed.result.run right ↔
          automaton.run left = automaton.run right)) ∧
      ∀ state, state ∈ observed.result.states ↔
        ∃ word, automaton.Knows word ∧ observed.result.run word = .singleton state := by
  refine ⟨construct automaton, determinise_eq valid, fun word knows => ?_,
    fun left right knowsLeft knowsRight => ?_, fun state => ?_⟩
  · exact ⟨_, (run_result loud knows).2⟩
  · rcases run_result loud knowsLeft with ⟨visitedLeft, sameLeft⟩
    rcases run_result loud knowsRight with ⟨visitedRight, sameRight⟩
    rw [sameLeft, sameRight, SortedSet.singleton_inj]
    exact ⟨stateName_injective visitedLeft visitedRight, congrArg (stateName automaton)⟩
  · rw [mem_states_result]
    constructor
    · rintro ⟨set, visited, rfl⟩
      rcases visited.exists_run with ⟨word, knows, rfl⟩
      exact ⟨word, knows, (run_result loud knows).2⟩
    · rintro ⟨word, knows, led⟩
      rcases run_result loud knows with ⟨visited, same⟩
      exact ⟨automaton.run word, visited, SortedSet.singleton_inj.mp (led.symm.trans same)⟩

/-- States are called like the sets that are met, like such a name counted up, and like the
sink, and one state cannot be reached. -/
def countedUpNames : Automaton :=
  ofRows "s" ["a,b"] ["x", "y"]
    [("s", [(.symbol "x", ["a", "b"]), (.symbol "y", ["a,b"])]),
      ("a", [(.symbol "y", ["a,b₁"])]),
      ("b", [(.epsilon, ["b"]), (.symbol "x", ["∅"])]),
      ("a,b", [(.symbol "x", ["a,b"])]),
      ("a,b₁", []), ("∅", [(.symbol "y", ["∅"])]), ("∅₁", [(.symbol "x", ["s"])])]

theorem determinise_countedUpNames :
    countedUpNames.isValid = true ∧ ¬ Label.epsilonText ∈ countedUpNames.alphabet ∧
      ∃ observed, countedUpNames.determinise = .ok observed ∧
        (∀ word, countedUpNames.Knows word →
          ∃ state, observed.result.run word = .singleton state) ∧
        (∀ left right, countedUpNames.Knows left → countedUpNames.Knows right →
          (observed.result.run left = observed.result.run right ↔
            countedUpNames.run left = countedUpNames.run right)) ∧
        ∀ state, state ∈ observed.result.states ↔
          ∃ word, countedUpNames.Knows word ∧ observed.result.run word = .singleton state :=
  ⟨by decide, by decide, determinise_states_exact countedUpNames (by decide) (by decide)⟩

end FormalLanguages.Automaton
