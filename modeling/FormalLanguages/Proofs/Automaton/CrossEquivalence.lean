import FormalLanguages.Proofs.Automaton.Completion
import FormalLanguages.Proofs.Automaton.Equivalence.Refinement

namespace FormalLanguages.Automaton

open StateEquivalence

/-! # Comparing the states of two automata

Both automata are completed over the symbols of both. That changes nothing about what
their own states accept, and the sinks are not shown. -/

variable {automaton left right : Automaton} {state : String} {word : List String}

/-! ## More symbols -/

section Symbols

variable (symbols : List String)

theorem edges_withSymbols : (automaton.withSymbols symbols).edges = automaton.edges := by
  rw [withSymbols_eq]
  rfl

theorem states_withSymbols : (automaton.withSymbols symbols).states = automaton.states := by
  rw [withSymbols_eq]
  rfl

theorem accepting_withSymbols : (automaton.withSymbols symbols).accepting = automaton.accepting := by
  rw [withSymbols_eq]

theorem Valid.withSymbols (valid : automaton.Valid) : (automaton.withSymbols symbols).Valid where
  starting := by
    rw [states_withSymbols, withSymbols_eq]
    exact valid.starting
  accepting := by
    rw [states_withSymbols, accepting_withSymbols]
    exact valid.accepting
  symbols state symbol target edge := by
    rw [edges_withSymbols] at edge
    exact mem_alphabet_withSymbols.mpr (.inr (valid.symbols state symbol target edge))
  targets := by
    rw [edges_withSymbols, states_withSymbols]
    exact valid.targets

theorem Deterministic.withSymbols (deterministic : automaton.Deterministic) :
    (automaton.withSymbols symbols).Deterministic where
  loud := by
    rw [edges_withSymbols]
    exact deterministic.loud
  unique := by
    rw [edges_withSymbols]
    exact deterministic.unique

theorem acceptsFrom_withSymbols :
    (automaton.withSymbols symbols).AcceptsFrom state word ↔ automaton.AcceptsFrom state word := by
  have edges : (automaton.withSymbols symbols).edges = automaton.edges := edges_withSymbols symbols
  rw [AcceptsFrom, AcceptsFrom, accepting_withSymbols]
  refine exists_congr fun target => and_congr_right fun _ => ?_
  exact ⟨Path.mono fun state edge => edges ▸ id, Path.mono fun state edge => edges ▸ id⟩

end Symbols

/-! ## Widening -/

theorem completes_widened (automaton other : Automaton) :
    Completes (automaton.withSymbols other.alphabet.toList) (widened automaton other) :=
  completes_completed _

theorem mem_alphabet_widened {other : Automaton} {symbol : String} :
    symbol ∈ (widened automaton other).automaton.alphabet ↔
      symbol ∈ other.alphabet ∨ symbol ∈ automaton.alphabet := by
  rw [(completes_widened automaton other).alphabet, mem_alphabet_withSymbols]
  exact or_congr_left SortedSet.mem_toList

theorem total_widened (valid : automaton.Valid) (deterministic : automaton.Deterministic)
    (other : Automaton) : (widened automaton other).automaton.Total :=
  (completes_widened automaton other).total (valid.withSymbols _) (deterministic.withSymbols _)

/-! ## The table of two automata -/

theorem sound_widened (validLeft : left.Valid) (validRight : right.Valid)
    (deterministicLeft : left.Deterministic) (deterministicRight : right.Deterministic) :
    Comparison.Sound ⟨(widened left right).automaton,
      (widened right (widened left right).automaton).automaton, false⟩ where
  left := total_widened validLeft deterministicLeft right
  right := total_widened validRight deterministicRight _
  alphabet := by
    refine SortedSet.ext fun symbol => ?_
    rw [mem_alphabet_widened, mem_alphabet_widened]
    exact or_iff_left_of_imp .inl
  symmetric := nofun

theorem requireDeterministic_eq_ok {side : Side} (valid : automaton.isValid = true)
    (deterministic : automaton.isDeterministic = true) :
    requireDeterministic side automaton = .ok () := by
  rw [requireDeterministic, valid, deterministic]
  rfl

section Cross

variable (validLeft : left.isValid = true) (validRight : right.isValid = true)
  (deterministicLeft : left.isDeterministic = true)
  (deterministicRight : right.isDeterministic = true)

include validLeft validRight deterministicLeft deterministicRight

theorem crossEquivalence_eq : crossEquivalence left right = .ok (crossRefinement left right) := by
  rw [crossEquivalence, requireDeterministic_eq_ok validLeft deterministicLeft,
    requireDeterministic_eq_ok validRight deterministicRight]
  rfl

theorem spans_crossRefinement :
    (crossRefinement left right).result.Spans left.states right.states := by
  have sound := sound_widened (isValid_iff.mp validLeft) (isValid_iff.mp validRight)
    (deterministic_iff.mp deterministicLeft) (deterministic_iff.mp deterministicRight)
  have spans := Comparison.spans_result (completes_widened left right)
    (completes_widened right (widened left right).automaton) sound
  rwa [states_withSymbols, states_withSymbols] at spans

theorem get?_crossRefinement {first second : String} {value : Bool}
    (found : (crossRefinement left right).result.get? first second = some value) :
    value = true ↔ ∀ word, left.acceptsFrom first word = right.acceptsFrom second word := by
  have validLeft := isValid_iff.mp validLeft
  have validRight := isValid_iff.mp validRight
  have sound := sound_widened validLeft validRight
    (deterministic_iff.mp deterministicLeft) (deterministic_iff.mp deterministicRight)
  rw [Comparison.get?_result (completes_widened left right)
    (completes_widened right (widened left right).automaton) sound
    (validLeft.withSymbols _) (validRight.withSymbols _) found]
  refine forall_congr' fun word => ?_
  rw [acceptsFrom_withSymbols, acceptsFrom_withSymbols, Bool.eq_iff_iff, acceptsFrom_iff,
    acceptsFrom_iff]

end Cross

/-- For two valid deterministic automata, whatever their alphabets are, the table has a cell
for each pair of their states. It says whether the two states accept the same words, and the
cell of the start states decides whether the automata do. -/
theorem crossEquivalence_exact (left right : Automaton)
    (validLeft : left.isValid = true) (validRight : right.isValid = true)
    (deterministicLeft : left.isDeterministic = true)
    (deterministicRight : right.isDeterministic = true) :
    ∃ refinement, crossEquivalence left right = .ok refinement ∧
      refinement.result.rows.keys = left.states ∧
      (∀ state cells, refinement.result.rows.get? state = some cells → cells.keys = right.states) ∧
      (∀ first second, first ∈ left.states → second ∈ right.states →
        ∃ value, refinement.result.get? first second = some value ∧
          (value = true ↔ ∀ word, left.acceptsFrom first word = right.acceptsFrom second word)) ∧
      ∃ verdict, equivalent left right = .ok verdict ∧
        (verdict = true ↔ ∀ word, left.accepts word = right.accepts word) := by
  have table := crossEquivalence_eq validLeft validRight deterministicLeft deterministicRight
  have spans := spans_crossRefinement validLeft validRight deterministicLeft deterministicRight
  have cell (first second : String) (inLeft : first ∈ left.states) (inRight : second ∈ right.states) :
      ∃ value, (crossRefinement left right).result.get? first second = some value ∧
        (value = true ↔ ∀ word, left.acceptsFrom first word = right.acceptsFrom second word) := by
    rcases Option.isSome_iff_exists.mp (spans.isSome_get?_iff.mpr ⟨inLeft, inRight⟩) with
      ⟨value, found⟩
    exact ⟨value, found, get?_crossRefinement validLeft validRight deterministicLeft
      deterministicRight found⟩
  refine ⟨crossRefinement left right, table, spans.rows, spans.columns, cell, ?_⟩
  rcases cell left.starting right.starting (isValid_iff.mp validLeft).starting
    (isValid_iff.mp validRight).starting with ⟨verdict, found, exact⟩
  refine ⟨verdict, ?_, exact⟩
  rw [equivalent, table, ← Option.getD_some (a := verdict) (b := false), ← found]
  rfl

/-- Odd numbers of `x`, with a state that is called like a sink and a symbol without edges. -/
def sinkNamed : Automaton :=
  ofRows "p" ["∅"] ["x", "y"] [("p", [(.symbol "x", ["∅"])]), ("∅", [(.symbol "x", ["p"])])]

/-- Odd numbers of `x` again, with a state more and over another alphabet. -/
def unrolled : Automaton :=
  ofRows "a" ["b"] ["x", "z"]
    [("a", [(.symbol "x", ["b"])]), ("b", [(.symbol "x", ["c"])]), ("c", [(.symbol "x", ["b"])])]

theorem crossEquivalence_sinkNamed_unrolled :
    sinkNamed.isValid = true ∧ unrolled.isValid = true ∧ sinkNamed.isDeterministic = true ∧
      unrolled.isDeterministic = true ∧
      ∃ refinement, crossEquivalence sinkNamed unrolled = .ok refinement ∧
        refinement.result.rows.keys = sinkNamed.states ∧
        (∀ state cells, refinement.result.rows.get? state = some cells →
          cells.keys = unrolled.states) ∧
        (∀ first second, first ∈ sinkNamed.states → second ∈ unrolled.states →
          ∃ value, refinement.result.get? first second = some value ∧
            (value = true ↔
              ∀ word, sinkNamed.acceptsFrom first word = unrolled.acceptsFrom second word)) ∧
        ∃ verdict, equivalent sinkNamed unrolled = .ok verdict ∧
          (verdict = true ↔ ∀ word, sinkNamed.accepts word = unrolled.accepts word) :=
  ⟨by decide, by decide, by decide, by decide,
    crossEquivalence_exact sinkNamed unrolled (by decide) (by decide) (by decide) (by decide)⟩

end FormalLanguages.Automaton
