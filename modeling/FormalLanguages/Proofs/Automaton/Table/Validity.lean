import FormalLanguages.Proofs.Automaton.Strays
import FormalLanguages.Proofs.Automaton.Table.Reading

namespace FormalLanguages.Automaton.Table

/-! # What can be wrong with a table that was read

Reading refuses whatever has no start state or names no state. What it lets pass has one kind of
fault only: a column may mention a state that has no row. -/

/-! ## Targets -/

theorem filled_of_column {line : Nat} {head : Char} {tail rest : List Char} {targets : List String}
    (read : column line head tail = .ok (targets, rest)) {target : String}
    (member : target ∈ targets) : target ≠ "" := by
  rw [column] at read
  split at read
  case isTrue =>
    split at read
    case h_1 => cases read
    case h_2 =>
      cases read
      rcases List.mem_map.mp member with ⟨piece, listed, rfl⟩
      have filled := (List.mem_filter.mp listed).2
      exact fun empty => by simp [String.ofList_eq_empty_iff.mp empty] at filled
  case isFalse =>
    split at read
    case isFalse => cases read
    case isTrue =>
      cases read
      split at member
      case isTrue => exact absurd member List.not_mem_nil
      case isFalse =>
        rw [List.mem_singleton.mp member]
        exact fun empty => List.cons_ne_nil _ _ (String.ofList_eq_empty_iff.mp empty)

theorem filled_of_columnsWithin {line steps : Nat} {text : List Char} {found : List (List String)}
    (read : columnsWithin line steps text = .ok found) {targets : List String}
    (listed : targets ∈ found) {target : String} (member : target ∈ targets) : target ≠ "" := by
  induction steps generalizing text found with
  | zero =>
      cases read
      cases listed
  | succ steps induction =>
      rw [columnsWithin] at read
      split at read
      case h_1 =>
        cases read
        cases listed
      case h_2 head tail _ =>
        rcases bind_eq_ok_iff.mp read with ⟨⟨first, rest⟩, own, later⟩
        rcases bind_eq_ok_iff.mp later with ⟨others, next, same⟩
        cases same
        rcases List.mem_cons.mp listed with rfl | after
        · exact filled_of_column own member
        · exact induction next after

/-! ## Rows -/

/-- The names at the head of the rows, which are all lines but the first. -/
def heads (text : String) : List String :=
  ((Text.numberedLines withoutComment text).drop 1).map fun line => String.ofList (stateText line.2)

theorem map_stateText_eq {columnCount : Nat} {lines : List (Nat × List Char)} {rows : List Row}
    (each : List.Forall₂ (fun numbered found => row numbered.1 columnCount numbered.2 = .ok found)
      lines rows) :
    lines.map (fun line => String.ofList (stateText line.2)) = rows.map Row.state := by
  induction each with
  | nil => rfl
  | cons read _ induction =>
      rw [List.map_cons, List.map_cons, induction, (row_eq_ok_iff.mp read).2.2.2.1]

theorem mem_rowOfColumns {columns : List (Label × List String)} {edge : Edge}
    (member : edge ∈ rowOfColumns columns) :
    ∃ targets, (edge.label, targets) ∈ columns ∧ edge.target ∈ targets := by
  rcases List.mem_flatMap.mp (SortedSet.mem_ofList.mp member) with ⟨⟨label, targets⟩, entry, inside⟩
  rcases List.mem_map.mp inside with ⟨target, listed, rfl⟩
  exact ⟨targets, SortedMap.mem_of_get?_ofList (SortedMap.get?_eq_some_iff.mpr entry), listed⟩

/-- Every edge stands in a column of the row of its state. -/
theorem mem_edges_ofRows {starting state : String} {accepting alphabet : List String}
    {rows : List (String × List (Label × List String))} {edge : Edge}
    (member : edge ∈ (ofRows starting accepting alphabet rows).edges state) :
    ∃ columns targets, (state, columns) ∈ rows ∧ (edge.label, targets) ∈ columns ∧
      edge.target ∈ targets := by
  have listed := SortedMap.mem_of_get?_ofList (get?_of_mem_edges member)
  rcases List.mem_map.mp listed with ⟨⟨other, columns⟩, inRows, same⟩
  rcases Prod.mk.inj same with ⟨rfl, row⟩
  rw [← row] at member
  rcases mem_rowOfColumns member with ⟨targets, column, inside⟩
  exact ⟨columns, targets, inRows, column, inside⟩

namespace Layout

variable {layout : Layout} {text : String} {automaton : Automaton}

theorem Holds.heads_eq (holds : layout.Holds text automaton) :
    heads text = layout.rows.map Row.state := by
  rw [heads, holds.lines, List.drop_succ_cons, List.drop_zero]
  exact map_stateText_eq (rowsFrom_eq_ok_iff.mp holds.rows).1

theorem Holds.mem_states_iff (holds : layout.Holds text automaton) {state : String} :
    state ∈ automaton.states ↔ state ∈ heads text := by
  rw [holds.heads_eq, holds.result, mem_states_ofRows, List.map_map]
  rfl

/-- An edge is labelled with a column, and a row names its target there. -/
theorem Holds.edge (holds : layout.Holds text automaton) {state : String} {edge : Edge}
    (member : edge ∈ automaton.edges state) : edge.label ∈ layout.labels ∧ edge.target ≠ "" := by
  rw [holds.result] at member
  rcases mem_edges_ofRows member with ⟨columns, targets, inRows, column, inside⟩
  rcases List.mem_map.mp inRows with ⟨row, listed, same⟩
  rw [← (Prod.mk.inj same).2] at column
  rcases List.of_mem_zip column with ⟨label, inColumns⟩
  rcases exists_item (rowsFrom_eq_ok_iff.mp holds.rows).1 listed with ⟨line, _, read⟩
  exact ⟨label, filled_of_columnsWithin (row_eq_ok_iff.mp read).2.1 inColumns inside⟩

theorem Holds.mem_alphabet (holds : layout.Holds text automaton) {symbol : String}
    (label : .symbol symbol ∈ layout.labels) : symbol ∈ automaton.alphabet := by
  rw [holds.result]
  exact SortedSet.mem_ofList.mpr (List.mem_filterMap.mpr ⟨_, label, rfl⟩)

end Layout

/-! ## What is read -/

/-- Start and accepting states have rows, edges are labelled with columns, and no name is empty and
no label leads nowhere. So there is one fault for each edge whose target has no row, and no other,
and a table is valid exactly if every target heads a row. -/
theorem read_faults_exact {text : String} {automaton : Automaton}
    (found : read text = .ok automaton) :
    automaton.starting ∈ automaton.states ∧
    (∀ state, state ∈ automaton.accepting → state ∈ automaton.states) ∧
    (∀ state symbol target, Edge.mk (.symbol symbol) target ∈ automaton.edges state →
      symbol ∈ automaton.alphabet) ∧
    (∀ state, state ∈ automaton.states → state ≠ "") ∧
    (∀ state edge, edge ∈ automaton.edges state → edge.target ≠ "") ∧
    (∀ state label, label ∈ labels (automaton.edges state) →
      ∃ target, target ∈ automaton.targets state label) ∧
    (automaton.faults = automaton.strays.map .ofStray ∧ automaton.strays.Nodup ∧
      ∀ state edge, (state, edge) ∈ automaton.strays ↔
        edge ∈ automaton.edges state ∧ edge.target ∉ automaton.states) ∧
    (∀ state, state ∈ automaton.states ↔ state ∈ heads text) ∧
    (automaton.isValid = true ↔
      ∀ state edge, edge ∈ automaton.edges state → edge.target ∈ heads text) := by
  rcases read_eq_ok_iff.mp found with ⟨layout, holds⟩
  have written := holds.written
  have symbols (state symbol target : String)
      (member : Edge.mk (.symbol symbol) target ∈ automaton.edges state) :
      symbol ∈ automaton.alphabet := holds.mem_alphabet (holds.edge member).1
  have faults : automaton.faults = automaton.strays.map .ofStray :=
    faults_eq_map_strays written.starting written.accepting symbols
  refine ⟨written.starting, written.accepting, symbols,
    fun state declared => (written.states state declared).filled,
    fun state edge member => (holds.edge member).2, fun state label listed => ?_,
    ⟨faults, nodup_strays automaton, fun _ _ => mem_strays⟩, fun _ => holds.mem_states_iff, ?_⟩
  · rcases mem_labels.mp listed with ⟨target, member⟩
    exact ⟨target, mem_targets.mpr member⟩
  · rw [isValid_iff]
    constructor
    · intro valid state edge member
      exact holds.mem_states_iff.mp (valid.targets state edge.label edge.target member)
    · intro headed
      exact ⟨written.starting, written.accepting, symbols,
        fun state label target member => holds.mem_states_iff.mpr (headed state _ member)⟩

/-- Short rows, a column that is there twice, and three edges into states that have no rows. -/
def strayingTable : String :=
  "ε a b a\n-> * p \x7bq,r\x7d lost ∅ \x7b r \x7d # p is marked twice\n q \x7b\x7d q\n * t ∅ ∅ u"

def straying : Automaton :=
  ofRows "p" ["p", "t"] ["a", "b"]
    [("p", [(.epsilon, ["q", "r"]), (.symbol "a", ["r"])]), ("q", [(.symbol "a", ["q"])]),
      ("t", [(.symbol "b", ["u"])])]

theorem read_faults_exact_straying :
    read strayingTable = .ok straying ∧ straying.isValid = false ∧
      straying.faults = [.edgeTarget "p" .epsilon "r", .edgeTarget "p" (.symbol "a") "r",
        .edgeTarget "t" (.symbol "b") "u"] ∧
      (∀ state, state ∈ straying.states ↔ state ∈ ["p", "q", "t"]) := by
  have found : read strayingTable = .ok straying := by decide
  rcases read_faults_exact found with ⟨-, -, -, -, -, -, ⟨faults, -⟩, states, -⟩
  have strays : straying.strays = [("p", ⟨.epsilon, "r"⟩), ("p", ⟨.symbol "a", "r"⟩),
      ("t", ⟨.symbol "b", "u"⟩)] := by decide
  have listed : heads strayingTable = ["p", "q", "t"] := by decide
  rw [strays] at faults
  rw [listed] at states
  exact ⟨found, by decide, faults, states⟩

end FormalLanguages.Automaton.Table
