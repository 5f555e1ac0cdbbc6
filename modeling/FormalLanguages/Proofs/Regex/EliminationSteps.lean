import FormalLanguages.Proofs.Regex.Extraction
import Mathlib.Data.List.Perm.Subperm

namespace FormalLanguages

/-! # The graphs on the way to an expression

Whatever state is taken out next, the graph that is left accepts what the automaton accepts, and
it has no edge at a state that was taken out. -/

namespace Regex.Elimination

variable {automaton : Automaton} {count position : Nat} {graph smaller : Graph}
  {remaining : List String} {state : String}

/-- The states in the order in which they are taken out. -/
def order (count : Nat) (graph : Graph) (remaining : List String) : List String :=
  (removals count graph remaining).map Prod.fst

theorem perm_order (enough : remaining.length ≤ count) :
    (order count graph remaining).Perm remaining := by
  induction count generalizing graph remaining with
  | zero => rw [List.length_eq_zero_iff.mp (Nat.le_zero.mp enough), order, removals, List.map_nil]
  | succ count induction =>
      cases remaining with
      | nil => exact .refl []
      | cons head tail =>
          have member := next_mem graph head tail
          have fewer : ((head :: tail).erase (next graph head tail)).length ≤ count := by
            rw [List.length_erase_of_mem member]
            exact Nat.sub_le_of_le_add enough
          rw [order, removals, List.map_cons]
          exact ((induction fewer).cons _).trans (List.perm_cons_erase member).symm

/-- What each removal keeps, with the removed state no longer remaining, holds of every graph on
the way, with the states that were removed until then no longer remaining. -/
theorem holds_of_removals {holds : Graph → List String → Prop}
    (keeps : ∀ graph remaining state, holds graph remaining → state ∈ remaining →
      holds (graph.remove state) (remaining.erase state))
    (first : holds graph remaining)
    (found : (removals count graph remaining)[position]? = some (state, smaller)) :
    holds smaller (remaining.diff ((order count graph remaining).take (position + 1))) := by
  induction count generalizing graph remaining position with
  | zero => cases found
  | succ count induction =>
      cases remaining with
      | nil => cases found
      | cons head tail =>
          have next := keeps graph _ _ first (next_mem graph head tail)
          rw [removals] at found
          rw [order, removals, List.map_cons, List.take_succ_cons, List.diff_cons]
          cases position with
          | zero =>
              cases found
              exact next
          | succ position => exact induction next found

/-- An edge goes between states that remain and the two new ones. -/
theorem Remains.touches_eq_false (remains : Remains automaton graph remaining) {link : Link}
    (edge : link ∈ graph.edges.keyList) (declared : state ∈ automaton.states)
    (gone : state ∉ remaining) : link.touches state = false := by
  rcases List.mem_map.mp edge with ⟨⟨_, regex⟩, listed, rfl⟩
  have fits := remains.fit _ _ (SortedMap.get?_eq_some_iff.mpr listed)
  have other {name special : String} (new : ¬ special ∈ automaton.states)
      (place : name = special ∨ name ∈ remaining) : name ≠ state := by
    rintro rfl
    exact place.elim (fun same => new (same ▸ declared)) gone
  have source := other (newName_not_mem (by decide)) fits.source
  have target := other (newName_not_mem (by decide)) fits.target
  simp [Link.touches, source, target]

/-! ## The recorded steps -/

/-- The order in which the states of an automaton are taken out. -/
def eliminated (automaton : Automaton) : List String :=
  order automaton.states.toList.length (initial automaton) automaton.states.toList

theorem perm_eliminated (automaton : Automaton) :
    (eliminated automaton).Perm automaton.states.toList := perm_order (Nat.le_refl _)

theorem remains_of_step (valid : automaton.Valid) {step : Step Graph}
    (found : (eliminate automaton).steps[position]? = some step) :
    Remains automaton step.snapshot
      (automaton.states.toList.diff ((eliminated automaton).take position)) := by
  cases position with
  | zero =>
      cases found
      exact remains_initial valid
  | succ position =>
      rw [eliminate, List.getElem?_cons_succ, List.getElem?_map, Option.map_eq_some_iff] at found
      rcases found with ⟨⟨state, smaller⟩, found, rfl⟩
      exact holds_of_removals (fun _ _ _ before member => before.remove member)
        (remains_initial valid) found

theorem descriptions_eliminate (automaton : Automaton) :
    (eliminate automaton).steps.map Step.description =
      some (initialDescription (initial automaton)) ::
        (eliminated automaton).map fun state => some (removedDescription state) := by
  rw [eliminate, List.map_cons, eliminated, order, List.map_map, List.map_map]
  rfl

end Regex.Elimination

namespace Automaton

open Regex Elimination

/-- The first step for a valid automaton is followed by one for each of its states. The graph of
every step accepts what the automaton accepts, and no edge touches a state that was taken out in
that step or before it. -/
theorem toRegex_steps (automaton : Automaton) (valid : automaton.isValid = true) :
    ∃ (observed : Observed Graph (Option Regex)) (order : List String),
      automaton.toRegex = .ok observed ∧ order.Perm automaton.states.toList ∧
      observed.steps.length = automaton.states.size + 1 ∧
      observed.steps.map Step.description = some (initialDescription (initial automaton)) ::
        order.map (fun state => some (removedDescription state)) ∧
      ∀ position step, observed.steps[position]? = some step →
        (∀ word, step.snapshot.Accepts word ↔ automaton.accepts word = true) ∧
        ∀ link : Link, link ∈ step.snapshot.edges.keyList →
          ∀ state, state ∈ order.take position → link.touches state = false := by
  have sound := isValid_iff.mp valid
  have descriptions := descriptions_eliminate automaton
  have same := perm_eliminated automaton
  refine ⟨eliminate automaton, eliminated automaton, ?_, same, ?_, descriptions,
    fun position step found => ?_⟩
  · simp only [toRegex, requireValid, valid, if_true]
    rfl
  · have counted := congrArg List.length descriptions
    rwa [List.length_map, List.length_cons, List.length_map, same.length_eq] at counted
  · have remains := remains_of_step sound found
    refine ⟨fun word => (remains.accepts word).trans accepts_iff.symm,
      fun link edge state gone => ?_⟩
    apply remains.touches_eq_false edge (same.mem_iff.mp (List.mem_of_mem_take gone))
    rw [automaton.states.nodup_toList.mem_sdiff_iff]
    exact fun kept => kept.2 gone

theorem toRegex_steps_takenNames :
    takenNames.isValid = true ∧
      ∃ (observed : Observed Graph (Option Regex)) (order : List String),
        takenNames.toRegex = .ok observed ∧ order.Perm takenNames.states.toList ∧
        observed.steps.length = takenNames.states.size + 1 ∧
        observed.steps.map Step.description =
          ["Added the start state sₛₛ and the accepting state sₐₐ", "Eliminated dead",
            "Eliminated sₐ", "Eliminated sₛ"].map some ∧
        ∀ position step, observed.steps[position]? = some step →
          (∀ word, step.snapshot.Accepts word ↔ takenNames.accepts word = true) ∧
          ∀ link : Link, link ∈ step.snapshot.edges.keyList →
            ∀ state, state ∈ order.take position → link.touches state = false := by
  have valid : takenNames.isValid = true := by decide
  rcases toRegex_steps takenNames valid with ⟨observed, order, found, same, counted, -, steps⟩
  refine ⟨valid, observed, order, found, same, counted, ?_, steps⟩
  cases found
  decide +kernel

end Automaton

end FormalLanguages
