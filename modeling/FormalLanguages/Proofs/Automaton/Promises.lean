import FormalLanguages.Proofs.Automaton.Runs
import Mathlib.Computability.Language
import Mathlib.Logic.Function.Basic
import Mathlib.Order.CompletePartialOrder

namespace FormalLanguages

/-! # What states promise

A promise gives each state a language. If every edge keeps it, then no state leads to
more than its language, followed by what is promised where the path ends. -/

open scoped Computability

namespace Label

/-- What an edge with the label consumes. -/
def language : Label → Language String
  | epsilon => 1
  | symbol name => {[name]}

end Label

namespace Automaton

variable {automaton : Automaton} {promise : String → Language String}

def Keeps (automaton : Automaton) (promise : String → Language String) : Prop :=
  ∀ source label target, Edge.mk label target ∈ automaton.edges source →
    label.language * promise target ≤ promise source

theorem Keeps.append_mem (keeps : automaton.Keeps promise) {source target : String}
    {word rest : List String} (path : automaton.Path source word target)
    (member : rest ∈ promise target) : word ++ rest ∈ promise source := by
  induction path with
  | stay => exact member
  | skip edge _ induction =>
      have inherits := keeps _ _ _ edge
      rw [Label.language, one_mul] at inherits
      exact inherits (induction member)
  | @consume _ _ _ symbol _ edge _ induction =>
      exact keeps _ _ _ edge (Language.append_mem_mul (a := [symbol]) rfl (induction member))

theorem keeps_withTransition {source target : String} {label : Label} :
    (automaton.withTransition source label target).Keeps promise ↔
      automaton.Keeps promise ∧ label.language * promise target ≤ promise source := by
  constructor
  · intro keeps
    constructor
    · intro first other last edge
      exact keeps _ _ _ ((mem_edges_withTransition ..).mpr (.inr edge))
    · exact keeps _ _ _ ((mem_edges_withTransition ..).mpr (.inl ⟨rfl, rfl⟩))
  · rintro ⟨keeps, new⟩ first other last edge
    rcases (mem_edges_withTransition ..).mp edge with ⟨rfl, same⟩ | edge
    · cases same
      exact new
    · exact keeps _ _ _ edge

/-- A state without edges may promise anything. -/
theorem Keeps.update (keeps : automaton.Keeps promise) (valid : automaton.Valid) {state : String}
    (new : ¬ state ∈ automaton.states) (language : Language String) :
    (automaton.declareState state).Keeps (Function.update promise state language) := by
  intro source label target edge
  rw [edges_declareState] at edge
  have fromOther : source ≠ state := fun same =>
    new (same ▸ mem_states_of_edge edge)
  have toOther : target ≠ state := fun same => new (same ▸ valid.targets _ _ _ edge)
  rw [Function.update_of_ne fromOther, Function.update_of_ne toOther]
  exact keeps source label target edge

end Automaton

end FormalLanguages
