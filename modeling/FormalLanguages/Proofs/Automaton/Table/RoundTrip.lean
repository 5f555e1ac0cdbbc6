import FormalLanguages.Proofs.Automaton.Table.Rereading
import FormalLanguages.Proofs.Automaton.Table.StateNames

namespace FormalLanguages.Automaton.Table

/-! # Automata that come back from their tables

An automaton is read back from its table exactly as it was if the table has a column, and the
names hold nothing that a table is written with. -/

variable {automaton : Automaton}

/-- A name that holds no blanks, braces or comments and begins with no mark. -/
theorem isStateName_of_unmarked {name : String} (filled : name ≠ "")
    (plain : ∀ character, character ∈ name.toList →
      Text.isBlank character = false ∧ character ∉ [openBrace, closeBrace, '#'])
    (unmarked : ∀ mark, mark ∈ ["→", "->", "*"] → ¬ mark.toList <+: name.toList) :
    IsStateName name := by
  apply isStateName_iff.mpr
  refine ⟨filled, fun character inside => ?_, fun mark isMark => ?_⟩
  · have own := plain character inside
    simp only [List.mem_cons, List.not_mem_nil, or_false, not_or] at own
    exact ⟨isNameCharacter_iff.mpr ⟨own.1, own.2.1, own.2.2.1⟩, own.2.2.2⟩
  · have spelled : mark ∈ ["→", "->", "*"].map String.toList := isMark
    rcases List.mem_map.mp spelled with ⟨text, listed, same⟩
    exact dropLeading?_eq_none_iff.mpr (same ▸ unmarked text listed)

theorem columnLabels_ne_nil (columns : automaton.alphabet ≠ ∅ ∨
    ∃ state target, Edge.mk .epsilon target ∈ automaton.edges state) :
    columnLabels automaton ≠ [] := by
  intro none
  have ⟨loud, empty⟩ := columnLabels_eq_nil_iff.mp none
  cases columns with
  | inl some => exact some empty
  | inr silent =>
      rcases silent with ⟨state, target, edge⟩
      exact loud state target edge

/-- Start state, accepting states, alphabet and edges all come back. -/
theorem reread_printed_automaton (valid : automaton.isValid = true)
    (columns : automaton.alphabet ≠ ∅ ∨
      ∃ state target, Edge.mk .epsilon target ∈ automaton.edges state)
    (symbols : ∀ symbol, symbol ∈ automaton.alphabet → symbol ≠ "" ∧ symbol ≠ "ε" ∧
      ∀ character, character ∈ symbol.toList → Text.isBlank character = false ∧ character ≠ '#')
    (states : ∀ state, state ∈ automaton.states → state ≠ "" ∧
      (∀ character, character ∈ state.toList →
        Text.isBlank character = false ∧ character ∉ [openBrace, closeBrace, '#']) ∧
      ∀ mark, mark ∈ ["→", "->", "*"] → ¬ mark.toList <+: state.toList)
    (listed : automaton.isDeterministic = true ∨
      ∀ state, state ∈ automaton.states → ',' ∉ state.toList) :
    read (print automaton) = .ok automaton := by
  have legible : Legible automaton := {
    valid := isValid_iff.mp valid
    symbols := fun symbol declared =>
      have ⟨filled, loud, solid⟩ := symbols symbol declared
      ⟨filled, loud, fun character inside => (solid character inside).1⟩
    states := fun state declared =>
      have ⟨filled, plain, unmarked⟩ := states state declared
      isStateName_of_unmarked filled plain unmarked
    listed := listed.imp_left deterministic_iff.mp }
  apply legible.read_print (columnLabels_ne_nil columns)
  intro symbol declared comment
  exact ((symbols symbol declared).2.2 '#' comment).2 rfl

/-- A start state that is called like no transition, and an accepting one that is half an arrow. -/
def oddlyNamed : Automaton :=
  ofRows "∅" ["-"] ["0", "ab"]
    [("∅", [(.epsilon, ["-", "∅"]), (.symbol "ab", ["∅"])]), ("-", [(.symbol "0", ["-"])])]

example : print oddlyNamed =
    "     ε       0    ab\n→ ∅  \x7b-, ∅\x7d  ∅    \x7b∅\x7d\n* -  ∅       \x7b-\x7d  ∅" := by
  decide

theorem reread_printed_automaton_oddlyNamed :
    oddlyNamed.isValid = true ∧ oddlyNamed.alphabet ≠ ∅ ∧
      (∀ symbol, symbol ∈ oddlyNamed.alphabet → symbol ≠ "" ∧ symbol ≠ "ε" ∧
        ∀ character, character ∈ symbol.toList →
          Text.isBlank character = false ∧ character ≠ '#') ∧
      (∀ state, state ∈ oddlyNamed.states → (state ≠ "" ∧
        (∀ character, character ∈ state.toList →
          Text.isBlank character = false ∧ character ∉ [openBrace, closeBrace, '#']) ∧
        ∀ mark, mark ∈ ["→", "->", "*"] → ¬ mark.toList <+: state.toList) ∧
        ',' ∉ state.toList) ∧
      read (print oddlyNamed) = .ok oddlyNamed := by
  have valid : oddlyNamed.isValid = true := by decide
  have columns : oddlyNamed.alphabet ≠ ∅ := by decide
  have symbols : ∀ symbol, symbol ∈ oddlyNamed.alphabet.toList → symbol ≠ "" ∧ symbol ≠ "ε" ∧
      ∀ character, character ∈ symbol.toList →
        Text.isBlank character = false ∧ character ≠ '#' := by decide
  have states : ∀ state, state ∈ oddlyNamed.states.toList → (state ≠ "" ∧
      (∀ character, character ∈ state.toList →
        Text.isBlank character = false ∧ character ∉ [openBrace, closeBrace, '#']) ∧
      ∀ mark, mark ∈ ["→", "->", "*"] → ¬ mark.toList <+: state.toList) ∧
      ',' ∉ state.toList := by decide
  exact ⟨valid, columns, symbols, states,
    reread_printed_automaton valid (.inl columns) symbols
      (fun state declared => (states state declared).1)
      (.inr fun state declared => (states state declared).2)⟩

end FormalLanguages.Automaton.Table
