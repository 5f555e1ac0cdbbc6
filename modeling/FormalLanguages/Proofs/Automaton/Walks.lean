import FormalLanguages.Proofs.Automaton.Runs
import FormalLanguages.Proofs.Reachability

namespace FormalLanguages.Automaton

/-! # Runs follow walks

A run ends where those walks end whose labels are its word, but for the labels that consume
nothing. Neither the end of a search nor an early end of the run leaves out a state. -/

variable {automaton : Automaton}

/-- The search for what silent edges lead to is not cut off, also where they go round. -/
theorem exhausts_closure (automaton : Automaton) (sources : List String) :
    ∃ found, Reachable.Exhausts automaton.silent [] (Reachable.unseen [] sources) found ∧
      automaton.closure sources = SortedSet.ofList found :=
  ⟨_, Reachable.exhausts_list (fun _ => mem_of_reachable_silent)
    (length_append_edgeTargets automaton sources), rfl⟩

/-! ## Stopping early -/

/-- Symbols are read for as long as a state is left. -/
def readOn (automaton : Automaton) : SortedSet String → List String → SortedSet String
  | current, [] => current
  | current, symbol :: rest =>
      if current.isEmpty then current else automaton.readOn (automaton.step current symbol) rest

theorem foldl_step_empty (word : List String) : word.foldl automaton.step ∅ = ∅ := by
  induction word with
  | nil => rfl
  | cons symbol rest induction => rw [List.foldl_cons, step_empty, induction]

theorem readOn_eq_foldl (current : SortedSet String) (word : List String) :
    automaton.readOn current word = word.foldl automaton.step current := by
  induction word generalizing current with
  | nil => rfl
  | cons symbol rest induction =>
      rw [readOn]
      split
      case isTrue none =>
        rw [SortedSet.eq_empty (SortedSet.isEmpty_iff.mp none), foldl_step_empty]
      case isFalse => exact induction _

theorem accepts_iff_exists_walk {word : List String} :
    automaton.accepts word = true ↔ ∃ target labels, target ∈ automaton.accepting ∧
      consumed labels = word ∧ automaton.Walk automaton.starting labels target := by
  rw [accepts_iff, Accepts, AcceptsFrom]
  simp only [path_iff_walk, exists_and_left]

/-- From any state, a word leads exactly to the ends of the walks that consume it, and it is
accepted if a walk from the start ends in an accepting state. All searches end by themselves, and
a run may stop as soon as no state is left. -/
theorem runs_follow_walks (automaton : Automaton) :
    (∀ state word target, target ∈ automaton.runFrom state word ↔
      ∃ labels, consumed labels = word ∧ automaton.Walk state labels target) ∧
    (∀ word, automaton.accepts word = true ↔ ∃ target labels, target ∈ automaton.accepting ∧
      consumed labels = word ∧ automaton.Walk automaton.starting labels target) ∧
    (∀ sources, ∃ found,
      Reachable.Exhausts automaton.silent [] (Reachable.unseen [] sources) found ∧
        automaton.closure sources = SortedSet.ofList found) ∧
    ∀ state word,
      automaton.runFrom state word = automaton.readOn (automaton.closure [state]) word := by
  refine ⟨fun state word target => ?_, fun word => accepts_iff_exists_walk,
    exhausts_closure automaton, fun state word => ?_⟩
  · exact mem_runFrom.trans path_iff_walk
  · exact (readOn_eq_foldl (automaton.closure [state]) word).symm

/-- Silent edges go round, and one of them leads to a state that is not declared. -/
def silentRound : Automaton :=
  ofRows "s" ["lost"] ["x"]
    [("s", [(.epsilon, ["t"]), (.symbol "x", ["s"])]), ("t", [(.epsilon, ["s", "lost"])])]

example : (silentRound.runFrom "s" ["x"]).toList = ["lost", "s", "t"] ∧
    silentRound.runFrom "lost" [] = .singleton "lost" ∧ silentRound.runFrom "lost" ["x"] = ∅ := by
  decide

end FormalLanguages.Automaton
