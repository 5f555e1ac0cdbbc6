import FormalLanguages.Proofs.Automaton.Equivalence.Refinement

namespace FormalLanguages.Automaton

open StateEquivalence

/-! # Classes of states that accept the same words

Every class holds exactly the states that are like one of its members. -/

variable {automaton : Automaton} {left right : String}

theorem sound_completed (valid : automaton.Valid) (deterministic : automaton.Deterministic) :
    Comparison.Sound ⟨automaton.completed.automaton, automaton.completed.automaton, true⟩ :=
  have total := (completes_completed automaton).total valid deterministic
  ⟨total, total, rfl, fun _ => rfl⟩

theorem spans_stateRefinement (valid : automaton.Valid) (deterministic : automaton.Deterministic) :
    automaton.stateRefinement.result.Spans automaton.states automaton.states :=
  Comparison.spans_result (completes_completed automaton) (completes_completed automaton)
    (sound_completed valid deterministic)

theorem get?_stateRefinement (valid : automaton.Valid) (deterministic : automaton.Deterministic)
    {value : Bool} (found : automaton.stateRefinement.result.get? left right = some value) :
    value = true ↔ ∀ word, automaton.AcceptsFrom left word ↔ automaton.AcceptsFrom right word :=
  Comparison.get?_result (completes_completed automaton) (completes_completed automaton)
    (sound_completed valid deterministic) valid valid found

namespace StateEquivalence.Table

theorem mem_rowClass {cells : SortedMap String Bool} {state : String} :
    state ∈ rowClass cells ↔ cells.get? state = some true := by
  rw [rowClass, SortedMap.mem_keys, ← SortedMap.isSome_get?, Option.isSome_iff_exists]
  simp only [SortedMap.get?_filter_eq_some_iff]
  constructor
  · rintro ⟨_, found, rfl⟩
    exact found
  · exact fun found => ⟨true, found, rfl⟩

/-- The classes are rows, in their order. -/
theorem sublist_classesFrom {assigned : List String}
    {entries : List (String × SortedMap String Bool)} :
    (classesFrom assigned entries).Sublist (entries.map fun entry => rowClass entry.2) := by
  fun_induction classesFrom assigned entries with
  | case1 => exact .slnil
  | case2 assigned state cells rest _ induction => exact induction.cons _
  | case3 assigned state cells rest _ _ induction => exact induction.cons_cons _

theorem of_mem_classesFrom {assigned : List String} {entries : List (String × SortedMap String Bool)}
    {members : SortedSet String} (member : members ∈ classesFrom assigned entries) :
    ∃ state cells, (state, cells) ∈ entries ∧ members = rowClass cells := by
  rcases List.mem_map.mp (sublist_classesFrom.mem member) with ⟨⟨state, cells⟩, listed, same⟩
  exact ⟨state, cells, listed, same.symm⟩

/-- Where each state belongs to the class of its own row, no state is left out. -/
theorem exists_mem_classesFrom {assigned : List String}
    {entries : List (String × SortedMap String Bool)}
    (own : ∀ state cells, (state, cells) ∈ entries → state ∈ rowClass cells)
    {state : String} {cells : SortedMap String Bool} (listed : (state, cells) ∈ entries) :
    state ∈ assigned ∨ ∃ members, members ∈ classesFrom assigned entries ∧ state ∈ members := by
  fun_induction classesFrom assigned entries with
  | case1 => cases listed
  | case2 assigned first row rest known induction =>
      rcases List.mem_cons.mp listed with same | later
      · cases same
        exact .inl known
      · exact induction (fun other row inRest => own other row (List.mem_cons_of_mem _ inRest)) later
  | case3 assigned first row rest _ members induction =>
      rcases List.mem_cons.mp listed with same | later
      · cases same
        exact .inr ⟨members, List.mem_cons_self, own state cells List.mem_cons_self⟩
      · rcases induction (fun other row inRest => own other row (List.mem_cons_of_mem _ inRest)) later
          with known | ⟨found, member, inside⟩
        · rcases List.mem_append.mp known with known | inFirst
          · exact .inl known
          · exact .inr ⟨members, List.mem_cons_self, inFirst⟩
        · exact .inr ⟨found, List.mem_cons_of_mem _ member, inside⟩

end StateEquivalence.Table

/-! ## The classes of an automaton -/

/-- From two states the same words are accepted. -/
def Alike (automaton : Automaton) (left right : String) : Prop :=
  ∀ word, automaton.AcceptsFrom left word ↔ automaton.AcceptsFrom right word

theorem Alike.refl (automaton : Automaton) (state : String) : automaton.Alike state state :=
  fun _ => Iff.rfl

theorem Alike.symm (alike : automaton.Alike left right) : automaton.Alike right left :=
  fun word => (alike word).symm

theorem Alike.trans {middle : String} (first : automaton.Alike left middle)
    (second : automaton.Alike middle right) : automaton.Alike left right :=
  fun word => (first word).trans (second word)

theorem Alike.targets {symbol leftTarget rightTarget : String}
    (alike : automaton.Alike left right) (deterministic : automaton.Deterministic)
    (leftEdge : Edge.mk (.symbol symbol) leftTarget ∈ automaton.edges left)
    (rightEdge : Edge.mk (.symbol symbol) rightTarget ∈ automaton.edges right) :
    automaton.Alike leftTarget rightTarget := by
  intro word
  rw [← deterministic.acceptsFrom_cons_of_edge leftEdge,
    ← deterministic.acceptsFrom_cons_of_edge rightEdge]
  exact alike (symbol :: word)

def classes (automaton : Automaton) : List (SortedSet String) :=
  automaton.stateRefinement.result.classes

section Classes

variable (valid : automaton.Valid) (deterministic : automaton.Deterministic)

include valid deterministic

theorem mem_states_of_row {cells : SortedMap String Bool}
    (listed : (left, cells) ∈ automaton.stateRefinement.result.rows.entries) :
    left ∈ automaton.states := by
  rw [← (spans_stateRefinement valid deterministic).rows]
  exact List.mem_map_of_mem (f := Prod.fst) listed

theorem mem_rowClass_iff {cells : SortedMap String Bool}
    (listed : (left, cells) ∈ automaton.stateRefinement.result.rows.entries) :
    right ∈ Table.rowClass cells ↔ right ∈ automaton.states ∧ automaton.Alike left right := by
  have spans := spans_stateRefinement valid deterministic
  have cell : automaton.stateRefinement.result.get? left right = cells.get? right := by
    rw [Table.get?, SortedMap.get?_eq_some_iff.mpr listed, Option.bind_some]
  rw [Table.mem_rowClass, ← cell]
  constructor
  · intro holds
    exact ⟨(spans.isSome_get?_iff.mp (Option.isSome_of_eq_some holds)).2,
      (get?_stateRefinement valid deterministic holds).mp rfl⟩
  · rintro ⟨known, alike⟩
    have declared := mem_states_of_row valid deterministic listed
    rcases Option.isSome_iff_exists.mp (spans.isSome_get?_iff.mpr ⟨declared, known⟩) with
      ⟨value, holds⟩
    rw [holds, (get?_stateRefinement valid deterministic holds).mpr alike]

theorem of_mem_classes {members : SortedSet String} (member : members ∈ automaton.classes) :
    ∃ state, state ∈ automaton.states ∧
      ∀ other, other ∈ members ↔ other ∈ automaton.states ∧ automaton.Alike state other := by
  rcases Table.of_mem_classesFrom member with ⟨state, cells, listed, rfl⟩
  exact ⟨state, mem_states_of_row valid deterministic listed,
    fun other => mem_rowClass_iff valid deterministic listed⟩

theorem exists_mem_classes {state : String} (declared : state ∈ automaton.states) :
    ∃ members, members ∈ automaton.classes ∧ state ∈ members := by
  have own : ∀ state cells, (state, cells) ∈ automaton.stateRefinement.result.rows.entries →
      state ∈ Table.rowClass cells := fun state cells listed =>
    (mem_rowClass_iff valid deterministic listed).mpr
      ⟨mem_states_of_row valid deterministic listed, .refl automaton state⟩
  rw [← (spans_stateRefinement valid deterministic).rows, SortedMap.mem_keys,
    ← SortedMap.isSome_get?, Option.isSome_iff_exists] at declared
  rcases declared with ⟨cells, found⟩
  have placed : state ∈ [] ∨ ∃ members, members ∈ automaton.classes ∧ state ∈ members :=
    Table.exists_mem_classesFrom own (SortedMap.get?_eq_some_iff.mp found)
  exact placed.resolve_left List.not_mem_nil

end Classes

end FormalLanguages.Automaton
