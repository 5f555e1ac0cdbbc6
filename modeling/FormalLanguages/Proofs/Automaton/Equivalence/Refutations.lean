import FormalLanguages.Proofs.Automaton.CrossEquivalence
import FormalLanguages.Proofs.Automaton.Equivalence.Classes

namespace FormalLanguages.Automaton

namespace StateEquivalence

/-! # What the steps of a refinement say

Each refutation changes one pair of the table, in both orders, and rests on a pair that had been
refuted before. A pair with the sink is refuted in the same way but without a step, and what is
shown of the table stays as it was. So the steps still follow from each other. -/

variable {table first before last : Table} {row column left right : String}

/-- The order of the states does not matter. -/
def Refutation.isOf (refutation : Refutation) (left right : String) : Bool :=
  left = refutation.left && right = refutation.right ||
    left = refutation.right && right = refutation.left

theorem Refutation.isOf_iff {refutation : Refutation} : refutation.isOf left right = true ↔
    left = refutation.left ∧ right = refutation.right ∨
      left = refutation.right ∧ right = refutation.left := by
  simp [isOf]

namespace Table

theorem get?_without {hiddenRow hiddenColumn : Option String} :
    (table.without hiddenRow hiddenColumn).get? row column =
      if hiddenRow ≠ some row ∧ hiddenColumn ≠ some column then table.get? row column
      else none := by
  refine Option.ext fun value => ?_
  rw [get?_without_eq_some_iff]
  split
  case isTrue shown => exact ⟨fun found => found.2.2, fun found => ⟨shown.1, shown.2, found⟩⟩
  case isFalse kept => exact ⟨fun found => absurd ⟨found.1, found.2.1⟩ kept, nofun⟩

theorem Spans.eq {other : Table} {rows columns : SortedSet String}
    (spans : table.Spans rows columns) (spansOther : other.Spans rows columns)
    (same : ∀ row column, table.get? row column = other.get? row column) : table = other := by
  rcases table with ⟨entries⟩
  rcases other with ⟨others⟩
  refine congrArg Table.mk (SortedMap.ext fun row => ?_)
  have declared : (entries.get? row).isSome = true ↔ (others.get? row).isSome = true := by
    rw [SortedMap.isSome_get?, SortedMap.isSome_get?, ← SortedMap.mem_keys, ← SortedMap.mem_keys,
      spans.rows, spansOther.rows]
  cases found : entries.get? row with
  | none =>
      rw [found] at declared
      exact (Option.not_isSome_iff_eq_none.mp (declared.not.mp nofun)).symm
  | some cells =>
      rcases Option.isSome_iff_exists.mp (declared.mp (Option.isSome_of_eq_some found)) with
        ⟨otherCells, listed⟩
      rw [listed]
      refine congrArg some (SortedMap.ext fun column => ?_)
      have cell := same row column
      rwa [get?, get?, found, listed] at cell

end Table

/-! ## How a table came about -/

namespace Comparison

variable {comparison : Comparison} {progress : Refinement} {refutations : List Refutation}
  {refutation : Refutation}

/-- What a refutation rests on, and what it changes. -/
structure Proves (comparison : Comparison) (before : Table) (refutation : Refutation) : Prop where
  holds : before.get? refutation.left refutation.right = some true
  leftEdge : Edge.mk (.symbol refutation.symbol) refutation.leftTarget ∈
    comparison.left.edges refutation.left
  rightEdge : Edge.mk (.symbol refutation.symbol) refutation.rightTarget ∈
    comparison.right.edges refutation.right
  refuted : before.get? refutation.leftTarget refutation.rightTarget = some false
  table : refutation.table = comparison.refute before refutation.left refutation.right

/-- The latest refutation comes first. -/
inductive History (comparison : Comparison) (first : Table) : List Refutation → Table → Prop
  | start : History comparison first [] first
  | refute {earlier : List Refutation} {before : Table} {refutation : Refutation}
      (history : History comparison first earlier before)
      (proves : comparison.Proves before refutation) :
      History comparison first (refutation :: earlier) refutation.table

structure Tells (comparison : Comparison) (first : Table) (progress : Refinement) : Prop where
  initial : progress.initial = first
  history : comparison.History first progress.refutations progress.table

theorem Tells.examine (tells : comparison.Tells first progress) (pair : String × String) :
    comparison.Tells first (comparison.examine progress pair) := by
  rcases pair with ⟨left, right⟩
  rcases comparison.examine_cases progress left right with
    ⟨same, _⟩ | ⟨symbol, leftTarget, rightTarget, holds, found, same⟩
  · rwa [same]
  · rcases of_refuted?_eq_some found with ⟨leftEdge, rightEdge, refuted⟩
    rw [same]
    exact ⟨tells.initial, tells.history.refute ⟨holds, leftEdge, rightEdge, refuted, rfl⟩⟩

theorem tells_refine (hiddenRow hiddenColumn : Option String) :
    comparison.Tells (Table.initial comparison.left comparison.right)
      (comparison.refine hiddenRow hiddenColumn) :=
  refineWithin_keeps (fun _ pair tells => tells.examine pair) _ ⟨rfl, .start⟩

/-! ## The table of one automaton with itself -/

theorem get?_refute_both (symmetric : comparison.symmetric = true) :
    (comparison.refute table left right).get? row column =
      if row = left ∧ column = right ∨ row = right ∧ column = left then
        (table.get? row column).map fun _ => false
      else
        table.get? row column := by
  rw [refute, if_pos symmetric, Table.get?_refute, Table.get?_refute]
  by_cases own : row = left ∧ column = right
  · rw [if_pos own, if_pos (Or.inl own), Option.map_map]
    exact ite_self _
  · rw [if_neg own]
    simp only [own, false_or]

theorem Proves.get?_eq (proves : comparison.Proves before refutation)
    (symmetric : comparison.symmetric = true) :
    refutation.table.get? row column = if refutation.isOf row column then
      (before.get? row column).map fun _ => false else before.get? row column := by
  rw [proves.table, get?_refute_both symmetric]
  simp only [Refutation.isOf_iff]

/-- It does not matter in which order the states of a pair are looked up. -/
structure Mirrored (comparison : Comparison) (table : Table) : Prop where
  spans : table.Spans comparison.left.states comparison.right.states
  turned : ∀ left right, table.get? left right = table.get? right left

theorem History.mirrored (symmetric : comparison.symmetric = true)
    (same : comparison.right = comparison.left)
    (history : comparison.History (Table.initial comparison.left comparison.right)
      refutations table) : Mirrored comparison table := by
  induction history with
  | start =>
      refine ⟨Table.spans_initial _ _, fun left right => ?_⟩
      rw [same, Table.get?_initial, Table.get?_initial, Bool.beq_comm]
      simp only [and_comm]
  | @refute earlier before refutation _ proves induction =>
      constructor
      · rw [proves.table, Comparison.refute, if_pos symmetric]
        exact induction.spans.refute.refute
      · intro left right
        rw [proves.get?_eq symmetric, proves.get?_eq symmetric, induction.turned left right]
        simp only [Refutation.isOf_iff, and_comm, or_comm]

theorem Proves.held (proves : comparison.Proves before refutation)
    (mirrored : Mirrored comparison before) (own : refutation.isOf row column = true) :
    before.get? row column = some true := by
  rcases Refutation.isOf_iff.mp own with ⟨rfl, rfl⟩ | ⟨rfl, rfl⟩
  · exact proves.holds
  · exact (mirrored.turned _ _).trans proves.holds

end Comparison

end StateEquivalence

open StateEquivalence

/-! ## What is shown -/

variable {automaton : Automaton} {first before last : Table} {refutations : List Refutation}
  {left right state symbol target : String}

/-- A missing transition leads to the sink. -/
def LeadsTo (automaton : Automaton) (state symbol target : String) : Prop :=
  Edge.mk (.symbol symbol) target ∈ automaton.edges state ∨
    (∀ other, ¬ Edge.mk (.symbol symbol) other ∈ automaton.edges state) ∧
      automaton.completed.sink = some target

theorem leadsTo_of_edge
    (edge : Edge.mk (.symbol symbol) target ∈ automaton.completed.automaton.edges state) :
    automaton.LeadsTo state symbol target := by
  rcases ((completes_completed automaton).edges state _).mp edge with
    old | ⟨_, _, found, _, _, lacking, ⟨⟩⟩
  · exact .inl old
  · exact .inr ⟨lacks_iff.mp lacking, found⟩

/-- A step from one table of the states to the next, and why it is made. -/
structure Refutes (automaton : Automaton) (before : Table) (refutation : Refutation) : Prop where
  spans : refutation.table.Spans automaton.states automaton.states
  cells : ∀ row column, refutation.table.get? row column =
    if refutation.isOf row column then some false else before.get? row column
  held : ∀ row column, refutation.isOf row column = true → before.get? row column = some true
  symbol : refutation.symbol ∈ automaton.alphabet
  leftTarget : automaton.LeadsTo refutation.left refutation.symbol refutation.leftTarget
  rightTarget : automaton.LeadsTo refutation.right refutation.symbol refutation.rightTarget
  refuted : refutation.leftTarget ∈ automaton.states → refutation.rightTarget ∈ automaton.states →
    before.get? refutation.leftTarget refutation.rightTarget = some false

/-- The latest refutation comes last. -/
inductive Refutations (automaton : Automaton) (first : Table) : List Refutation → Table → Prop
  | start : Refutations automaton first [] first
  | refute {earlier : List Refutation} {before : Table} {refutation : Refutation}
      (known : Refutations automaton first earlier before)
      (step : automaton.Refutes before refutation) :
      Refutations automaton first (earlier ++ [refutation]) refutation.table

/-- A pair that is refuted stays so and is not refuted again. -/
theorem Refutations.count (known : automaton.Refutations first refutations last)
    (held : first.get? left right = some true) :
    last.get? left right = some true ∧ refutations.countP (·.isOf left right) = 0 ∨
      last.get? left right = some false ∧ refutations.countP (·.isOf left right) = 1 := by
  induction known with
  | start => exact .inl ⟨held, rfl⟩
  | @refute earlier before refutation _ step induction =>
      rw [List.countP_append, List.countP_singleton, step.cells]
      cases own : refutation.isOf left right with
      | false => simpa using induction
      | true =>
          -- The pair still holds before the step, so no step before was about it.
          rcases induction with ⟨_, none⟩ | ⟨refuted, _⟩
          · exact .inr ⟨rfl, by rw [none, if_pos rfl]⟩
          · exact absurd (refuted.symm.trans (step.held left right own)) (by decide)

/-! ## Hiding the sink -/

def withoutSink (automaton : Automaton) (table : Table) : Table :=
  table.without automaton.completed.sink automaton.completed.sink

def isVisible (automaton : Automaton) (refutation : Refutation) : Bool :=
  automaton.completed.sink ≠ some refutation.left &&
    automaton.completed.sink ≠ some refutation.right

/-- A refutation with what is shown of its table. -/
def showing (automaton : Automaton) (refutation : Refutation) : Refutation :=
  { refutation with table := automaton.withoutSink refutation.table }

/-- The comparison of the states with each other. -/
def itself (automaton : Automaton) : Comparison :=
  ⟨automaton.completed.automaton, automaton.completed.automaton, true⟩

theorem get?_withoutSink {table : Table} : (automaton.withoutSink table).get? left right =
    if automaton.completed.sink ≠ some left ∧ automaton.completed.sink ≠ some right then
      table.get? left right
    else
      none := Table.get?_without

theorem get?_withoutSink_of_mem {table : Table} (knownLeft : left ∈ automaton.states)
    (knownRight : right ∈ automaton.states) :
    (automaton.withoutSink table).get? left right = table.get? left right := by
  have fresh := (completes_completed automaton).fresh
  exact get?_withoutSink.trans
    (if_pos ⟨fun same => fresh _ same knownLeft, fun same => fresh _ same knownRight⟩)

theorem isVisible_iff_of_isOf {refutation : Refutation}
    (own : refutation.isOf left right = true) : automaton.isVisible refutation = true ↔
      automaton.completed.sink ≠ some left ∧ automaton.completed.sink ≠ some right := by
  rw [isVisible, Bool.and_eq_true, decide_eq_true_eq, decide_eq_true_eq]
  rcases Refutation.isOf_iff.mp own with ⟨rfl, rfl⟩ | ⟨rfl, rfl⟩
  · exact Iff.rfl
  · exact and_comm

theorem spans_withoutSink {table : Table}
    (mirrored : Comparison.Mirrored automaton.itself table) :
    (automaton.withoutSink table).Spans automaton.states automaton.states := by
  have spans := mirrored.spans.without automaton.completed.sink automaton.completed.sink
  rwa [itself, (completes_completed automaton).filter_states] at spans

section Steps

variable {refutation : Refutation} (proves : automaton.itself.Proves before refutation)
  (mirrored : Comparison.Mirrored automaton.itself before)
  (after : Comparison.Mirrored automaton.itself refutation.table)

include proves mirrored after

theorem refutes_showing (valid : automaton.Valid)
    (visible : automaton.isVisible refutation = true) :
    automaton.Refutes (automaton.withoutSink before) (automaton.showing refutation) where
  spans := spans_withoutSink after
  cells row column := by
    change (automaton.withoutSink refutation.table).get? row column =
      if refutation.isOf row column then _ else _
    rw [get?_withoutSink, get?_withoutSink, proves.get?_eq rfl]
    by_cases own : refutation.isOf row column = true
    · rw [if_pos ((isVisible_iff_of_isOf own).mp visible), if_pos own, if_pos own,
        proves.held mirrored own]
      rfl
    · rw [if_neg own, if_neg own]
  held row column own := by
    rw [get?_withoutSink, if_pos ((isVisible_iff_of_isOf own).mp visible)]
    exact proves.held mirrored own
  symbol := by
    have completes := completes_completed automaton
    have known := (completes.valid valid).symbols _ _ _ proves.leftEdge
    rwa [completes.alphabet] at known
  leftTarget := leadsTo_of_edge proves.leftEdge
  rightTarget := leadsTo_of_edge proves.rightEdge
  refuted knownLeft knownRight :=
    (get?_withoutSink_of_mem knownLeft knownRight).trans proves.refuted

/-- Only cells in the row and the column of the sink change. -/
theorem withoutSink_of_hidden (hidden : automaton.isVisible refutation = false) :
    automaton.withoutSink refutation.table = automaton.withoutSink before := by
  refine (spans_withoutSink after).eq (spans_withoutSink mirrored) fun row column => ?_
  rw [get?_withoutSink, get?_withoutSink]
  split
  case isFalse => rfl
  case isTrue shown =>
    rw [proves.get?_eq rfl, if_neg]
    intro own
    exact absurd ((isVisible_iff_of_isOf own).mpr shown) (Bool.not_eq_true _ ▸ hidden)

end Steps

theorem refutations_of_history (valid : automaton.Valid) {initial table : Table}
    (initially : initial = Table.initial automaton.itself.left automaton.itself.right)
    (history : automaton.itself.History initial refutations table) :
    automaton.Refutations (automaton.withoutSink initial)
      ((refutations.reverse.filter automaton.isVisible).map automaton.showing)
      (automaton.withoutSink table) := by
  induction history with
  | start => exact .start
  | @refute earlier before refutation history proves induction =>
      have mirrored := (initially ▸ history).mirrored rfl rfl
      have after := (initially ▸ history.refute proves).mirrored rfl rfl
      rw [List.reverse_cons, List.filter_append, List.map_append]
      cases visible : automaton.isVisible refutation with
      | true =>
          rw [List.filter_cons_of_pos visible]
          exact induction.refute (refutes_showing proves mirrored after valid visible)
      | false =>
          have same := withoutSink_of_hidden proves mirrored after visible
          rw [List.filter_cons_of_neg (visible ▸ nofun), same]
          simpa using induction

/-! ## The recorded steps -/

theorem hidden_stateRefinement (automaton : Automaton) :
    automaton.stateRefinement.hiddenRow = automaton.completed.sink ∧
      automaton.stateRefinement.hiddenColumn = automaton.completed.sink := by
  have hidden := automaton.itself.hidden_refine automaton.completed.sink automaton.completed.sink
  exact ⟨congrArg Prod.fst hidden, congrArg Prod.snd hidden⟩

theorem shown_stateRefinement (automaton : Automaton) :
    automaton.stateRefinement.shown = automaton.withoutSink := by
  funext table
  have hidden := hidden_stateRefinement automaton
  rw [Refinement.shown, hidden.1, hidden.2]
  rfl

theorem isShown_stateRefinement (automaton : Automaton) :
    automaton.stateRefinement.isShown = automaton.isVisible := by
  funext refutation
  have hidden := hidden_stateRefinement automaton
  rw [Refinement.isShown, hidden.1, hidden.2]
  rfl

/-- The initial table of a valid deterministic automaton tells accepting states from others. From
then on every step refutes the pair that it names, in both orders and nothing else, and the
targets that it names are those of the pair, already told apart where both are states. The steps
end with the returned table, and a pair that was told apart is named once. -/
theorem stateEquivalence_steps (automaton : Automaton) (valid : automaton.isValid = true)
    (deterministic : automaton.isDeterministic = true) :
    automaton.stateEquivalence = .ok automaton.stateRefinement ∧
      ∃ first refutations,
        automaton.stateRefinement.steps =
          Step.described first Refinement.initialDescription :: refutations.map (fun refutation =>
            Step.described refutation.table (Refinement.description refutation)) ∧
        first.Spans automaton.states automaton.states ∧
        (∀ left right, left ∈ automaton.states → right ∈ automaton.states →
          (first.get? left right = some true ↔
            (left ∈ automaton.accepting ↔ right ∈ automaton.accepting))) ∧
        automaton.Refutations first refutations automaton.stateRefinement.result ∧
        ∀ left right, first.get? left right = some true →
          automaton.stateRefinement.result.get? left right = some false →
            refutations.countP (·.isOf left right) = 1 := by
  have sound := isValid_iff.mp valid
  have completes := completes_completed automaton
  have tells : automaton.itself.Tells _ automaton.stateRefinement :=
    Comparison.tells_refine automaton.completed.sink automaton.completed.sink
  have known := refutations_of_history sound rfl tells.history
  have mirrored : Comparison.Mirrored automaton.itself
      (Table.initial automaton.itself.left automaton.itself.right) :=
    Comparison.History.mirrored rfl rfl .start
  have result : automaton.withoutSink automaton.stateRefinement.table =
      automaton.stateRefinement.result := by
    rw [Refinement.result, shown_stateRefinement]
  rw [result] at known
  refine ⟨?_, _, _, ?_, spans_withoutSink mirrored, fun left right knownLeft knownRight => ?_, known,
    fun left right held refuted => ?_⟩
  · rw [stateEquivalence, requireDeterministic_eq_ok valid deterministic]
    rfl
  · rw [Refinement.steps, shown_stateRefinement, isShown_stateRefinement, tells.initial,
      List.map_map]
    rfl
  · rw [get?_withoutSink_of_mem knownLeft knownRight, Table.get?_initial,
      if_pos ⟨completes.mem_states knownLeft, completes.mem_states knownRight⟩]
    simp [itself, isAccepting, completes.accepting]
  · rcases known.count held with ⟨kept, _⟩ | ⟨_, once⟩
    · exact absurd (kept.symm.trans refuted) (by decide)
    · exact once

/-- Some targets are the sink, and two states are told apart by one that is told apart from the
sink without a step. -/
def restsOnSink : Automaton :=
  ofRows "s" ["q"] ["a"]
    [("p", [(.symbol "a", ["q"])]), ("q", [(.symbol "a", ["q"])]), ("s", [(.symbol "a", ["p"])]),
      ("t", [])]

theorem stateEquivalence_steps_restsOnSink :
    restsOnSink.isValid = true ∧ restsOnSink.isDeterministic = true ∧
      restsOnSink.stateRefinement.steps.map Step.description =
        ["Accepting and non-accepting states are distinguishable",
          "p and s are distinguishable: on a they go to q and p, which are distinguishable",
          "p and t are distinguishable: on a they go to q and ∅, which are distinguishable",
          "s and t are distinguishable: on a they go to p and ∅, which are distinguishable"].map
          some ∧
      restsOnSink.stateEquivalence = .ok restsOnSink.stateRefinement ∧
      ∃ first refutations,
        restsOnSink.stateRefinement.steps =
          Step.described first Refinement.initialDescription :: refutations.map (fun refutation =>
            Step.described refutation.table (Refinement.description refutation)) ∧
        first.Spans restsOnSink.states restsOnSink.states ∧
        (∀ left right, left ∈ restsOnSink.states → right ∈ restsOnSink.states →
          (first.get? left right = some true ↔
            (left ∈ restsOnSink.accepting ↔ right ∈ restsOnSink.accepting))) ∧
        restsOnSink.Refutations first refutations restsOnSink.stateRefinement.result ∧
        ∀ left right, first.get? left right = some true →
          restsOnSink.stateRefinement.result.get? left right = some false →
            refutations.countP (·.isOf left right) = 1 :=
  ⟨by decide, by decide, by decide +kernel,
    stateEquivalence_steps restsOnSink (by decide) (by decide)⟩

end FormalLanguages.Automaton
