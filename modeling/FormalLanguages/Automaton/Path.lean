import FormalLanguages.Automaton.Basic

/-! # Paths through an automaton

What it means for an automaton to accept a sequence of symbols, said by single
edges and without any set of states. -/

namespace FormalLanguages.Automaton

/-- A path spells the symbols on its edges. Edges that consume nothing add nothing. -/
inductive Path (automaton : Automaton) : String → List String → String → Prop
  | stay (state : String) : Path automaton state [] state
  | skip {source middle target : String} {word : List String}
      (edge : Edge.mk .epsilon middle ∈ automaton.edges source)
      (rest : Path automaton middle word target) : Path automaton source word target
  | consume {source middle target symbol : String} {word : List String}
      (edge : Edge.mk (.symbol symbol) middle ∈ automaton.edges source)
      (rest : Path automaton middle word target) : Path automaton source (symbol :: word) target

namespace Path

variable {automaton : Automaton}

theorem append {source middle target : String} {first second : List String}
    (before : automaton.Path source first middle) (after : automaton.Path middle second target) :
    automaton.Path source (first ++ second) target := by
  induction before with
  | stay => exact after
  | skip edge _ induction => exact .skip edge (induction after)
  | consume edge _ induction => exact .consume edge (induction after)

theorem split {source target : String} {first second : List String}
    (path : automaton.Path source (first ++ second) target) :
    ∃ middle, automaton.Path source first middle ∧ automaton.Path middle second target := by
  generalize whole : first ++ second = word at path
  induction path generalizing first with
  | stay state =>
      rcases List.append_eq_nil_iff.mp whole with ⟨rfl, rfl⟩
      exact ⟨state, .stay state, .stay state⟩
  | skip edge _ induction =>
      rcases induction whole with ⟨middle, before, after⟩
      exact ⟨middle, .skip edge before, after⟩
  | consume edge rest induction =>
      cases first with
      | nil =>
          have same : second = _ := whole
          subst same
          exact ⟨_, .stay _, .consume edge rest⟩
      | cons symbol first =>
          rcases List.cons.inj whole with ⟨rfl, remaining⟩
          rcases induction remaining with ⟨middle, before, after⟩
          exact ⟨middle, .consume edge before, after⟩

end Path

/-! A walk names the labels of all its edges. Deleted of those that consume nothing, they are
the symbols that the path along the same edges spells. -/

inductive Walk (automaton : Automaton) : String → List Label → String → Prop
  | stay (state : String) : Walk automaton state [] state
  | follow {source middle target : String} {label : Label} {labels : List Label}
      (edge : Edge.mk label middle ∈ automaton.edges source)
      (rest : Walk automaton middle labels target) : Walk automaton source (label :: labels) target

def consumed (labels : List Label) : List String := labels.filterMap Label.symbol?

theorem path_iff_walk {automaton : Automaton} {source target : String} {word : List String} :
    automaton.Path source word target ↔
      ∃ labels, consumed labels = word ∧ automaton.Walk source labels target := by
  constructor
  · intro path
    induction path with
    | stay state => exact ⟨[], rfl, .stay state⟩
    | skip edge _ induction =>
        rcases induction with ⟨labels, rfl, walk⟩
        exact ⟨.epsilon :: labels, rfl, .follow edge walk⟩
    | @consume _ _ _ symbol _ edge _ induction =>
        rcases induction with ⟨labels, rfl, walk⟩
        exact ⟨.symbol symbol :: labels, rfl, .follow edge walk⟩
  · rintro ⟨labels, rfl, walk⟩
    induction walk with
    | stay state => exact .stay state
    | @follow _ _ _ label _ edge _ induction =>
        cases label with
        | epsilon => exact .skip edge induction
        | symbol name => exact .consume edge induction

/-- Whether a path leads from a state to an accepting one. -/
def AcceptsFrom (automaton : Automaton) (state : String) (word : List String) : Prop :=
  ∃ target, target ∈ automaton.accepting ∧ automaton.Path state word target

def Accepts (automaton : Automaton) (word : List String) : Prop :=
  automaton.AcceptsFrom automaton.starting word

end FormalLanguages.Automaton
