import FormalLanguages.Automaton.StateEquivalence
import FormalLanguages.Proofs.Automaton.Edges
import Mathlib.Data.List.Nodup

namespace FormalLanguages.Automaton.StateEquivalence.Table

/-! # Cells of equivalence tables

There is a cell for each pair of states, and refuting a pair changes nothing but the value
of its cell. -/

variable {table : Table} {row column left right : String} {value : Bool}

/-- A row for each state of one set, with a cell for each state of the other. -/
structure Spans (table : Table) (rows columns : SortedSet String) : Prop where
  rows : table.rows.keys = rows
  columns : ∀ row cells, table.rows.get? row = some cells → cells.keys = columns

theorem Spans.isSome_get?_iff {rows columns : SortedSet String} (spans : table.Spans rows columns) :
    (table.get? row column).isSome = true ↔ row ∈ rows ∧ column ∈ columns := by
  rw [← spans.rows, SortedMap.mem_keys, ← SortedMap.isSome_get?, get?]
  cases found : table.rows.get? row with
  | none => simp
  | some cells =>
      rw [Option.bind_some, SortedMap.isSome_get?, ← SortedMap.mem_keys, spans.columns row cells found]
      simp

theorem get?_initial {first second : Automaton} :
    (initial first second).get? row column =
      if row ∈ first.states ∧ column ∈ second.states then
        some (first.isAccepting row == second.isAccepting column) else none := by
  rw [get?, initial, SortedMap.get?_mapValues]
  simp only [mem_states_iff, ← Option.isSome_iff_exists]
  cases first.rows.get? row with
  | none => simp
  | some _ =>
      rw [Option.map_some, Option.bind_some, SortedMap.get?_mapValues]
      cases second.rows.get? column <;> simp

theorem spans_initial (first second : Automaton) :
    (initial first second).Spans first.states second.states where
  rows := SortedMap.keys_mapValues _ _
  columns row cells found := by
    rw [initial, SortedMap.get?_mapValues] at found
    rcases Option.map_eq_some_iff.mp found with ⟨_, _, rfl⟩
    exact SortedMap.keys_mapValues _ _

theorem get?_refute : (table.refute left right).get? row column =
    if row = left ∧ column = right then (table.get? row column).map fun _ => false
    else table.get? row column := by
  rw [get?, get?, refute, SortedMap.get?_mapValues]
  cases table.rows.get? row with
  | none => simp
  | some cells =>
    by_cases same : row = left
    · by_cases equal : column = right <;> cases cells.get? column <;> simp [same, equal]
    · simp [same]

theorem Spans.refute {rows columns : SortedSet String} (spans : table.Spans rows columns) :
    (table.refute left right).Spans rows columns where
  rows := (SortedMap.keys_mapValues _ _).trans spans.rows
  columns row cells found := by
    rw [Table.refute, SortedMap.get?_mapValues] at found
    rcases Option.map_eq_some_iff.mp found with ⟨before, known, rfl⟩
    split
    · exact (SortedMap.keys_mapValues _ _).trans (spans.columns row before known)
    · exact spans.columns row before known

/-! ## Pairs that are not told apart -/

theorem mem_truePairs : (row, column) ∈ table.truePairs ↔ table.get? row column = some true := by
  simp only [truePairs, List.mem_flatMap, List.mem_map, List.mem_filter, Prod.exists, get?,
    Option.bind_eq_some_iff, SortedMap.get?_eq_some_iff]
  constructor
  · rintro ⟨_, cells, listed, _, _, ⟨member, rfl⟩, ⟨⟩⟩
    exact ⟨cells, listed, member⟩
  · rintro ⟨cells, listed, member⟩
    exact ⟨row, cells, listed, column, true, ⟨member, rfl⟩, rfl⟩

theorem nodup_truePairs (table : Table) : table.truePairs.Nodup := by
  rw [truePairs, List.nodup_flatMap]
  constructor
  · rintro ⟨row, cells⟩ _
    have columns : ((cells.entries.filter Prod.snd).map Prod.fst).Nodup :=
      cells.nodup_keyList.sublist (List.Sublist.map Prod.fst List.filter_sublist)
    have pairs := columns.map (f := Prod.mk row) fun _ _ equal => congrArg Prod.snd equal
    rwa [List.map_map] at pairs
  · have distinct : table.rows.entries.Pairwise fun first second => first.1 ≠ second.1 :=
      List.pairwise_map.mp table.rows.nodup_keyList
    refine distinct.imp fun different pair inFirst inSecond => different ?_
    rcases List.mem_map.mp inFirst with ⟨_, _, rfl⟩
    rcases List.mem_map.mp inSecond with ⟨_, _, same⟩
    exact (congrArg Prod.fst same).symm

/-! ## Hidden states -/

theorem get?_without_eq_some_iff {hiddenRow hiddenColumn : Option String} :
    (table.without hiddenRow hiddenColumn).get? row column = some value ↔
      hiddenRow ≠ some row ∧ hiddenColumn ≠ some column ∧ table.get? row column = some value := by
  rw [get?, without, SortedMap.get?_mapValues, get?]
  simp only [Option.bind_eq_some_iff, Option.map_eq_some_iff, SortedMap.get?_filter_eq_some_iff,
    decide_eq_true_eq]
  constructor
  · rintro ⟨_, ⟨cells, ⟨found, shownRow⟩, rfl⟩, cell⟩
    rcases SortedMap.get?_filter_eq_some_iff.mp cell with ⟨cell, shownColumn⟩
    exact ⟨Ne.symm shownRow, Ne.symm (of_decide_eq_true shownColumn), cells, found, cell⟩
  · rintro ⟨shownRow, shownColumn, cells, found, cell⟩
    exact ⟨_, ⟨cells, ⟨found, Ne.symm shownRow⟩, rfl⟩, SortedMap.get?_filter_eq_some_iff.mpr
      ⟨cell, decide_eq_true (Ne.symm shownColumn)⟩⟩

theorem Spans.without {rows columns : SortedSet String} (spans : table.Spans rows columns)
    (hiddenRow hiddenColumn : Option String) :
    (table.without hiddenRow hiddenColumn).Spans (rows.filter fun row => some row ≠ hiddenRow)
      (columns.filter fun column => some column ≠ hiddenColumn) where
  rows := by
    rw [Table.without, SortedMap.keys_mapValues, ← spans.rows]
    exact SortedMap.keys_filter _ _
  columns row cells found := by
    rw [Table.without, SortedMap.get?_mapValues] at found
    rcases Option.map_eq_some_iff.mp found with ⟨before, known, rfl⟩
    rw [← spans.columns row before (SortedMap.get?_filter_eq_some_iff.mp known).1]
    exact SortedMap.keys_filter _ _

end FormalLanguages.Automaton.StateEquivalence.Table
