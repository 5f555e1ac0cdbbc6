import FormalLanguages.Proofs.Automaton.Renaming

namespace FormalLanguages.Automaton

open StateEquivalence

/-! # Minimising what is minimal already

A minimal automaton is complete, all of its states are reached and no two are alike. Pruning and
completing leave it alone, each class has one member, and the name of that member is free. -/

variable {automaton : Automaton} {classes : List (SortedSet String)} {state : String}

/-! ## Nothing to prune and nothing to complete -/

theorem withoutUnreachable_of_reached (valid : automaton.Valid) (reached : automaton.Reached) :
    automaton.withoutUnreachable = automaton := by
  have kept {state : String} (declared : state ∈ automaton.states) :
      state ∈ automaton.reachableStates := mem_reachableStates.mpr (reached state declared)
  exact withoutUnreachable_eq_self (fun _ => kept) fun state member =>
    kept (valid.accepting state member)

theorem Total.completed_eq (total : automaton.Total) : automaton.completed = ⟨automaton, none⟩ :=
  completed_eq_self (isPartial_eq_false_iff.mpr total.edge)

/-! ## Classes with one member -/

namespace Minimal

theorem prepared_of_reached (total : automaton.Total) (reached : automaton.Reached) :
    prepared automaton = automaton := by
  rw [prepared, withoutUnreachable_of_reached total.valid reached, total.completed_eq]

theorem naming_of_nodup (nodup : (classes.map className).Nodup) :
    naming classes = classes.map fun members => (members, className members) := by
  have start : ([] ++ ([] : Naming).map Prod.snd ++ classes.map className).Nodup := nodup
  exact naming_eq ▸ Name.foldl_assign_of_nodup classes start

section Singletons

variable (valid : automaton.Valid) (deterministic : automaton.Deterministic)
  (reduced : automaton.Reduced)

include valid deterministic reduced

theorem rowClass_eq_singleton {cells : SortedMap String Bool}
    (listed : (state, cells) ∈ automaton.stateRefinement.result.rows.entries) :
    Table.rowClass cells = .singleton state := by
  have declared := mem_states_of_row valid deterministic listed
  refine SortedSet.eq_singleton fun other => ?_
  rw [mem_rowClass_iff valid deterministic listed]
  constructor
  · rintro ⟨known, alike⟩
    exact (reduced state other declared known alike).symm
  · rintro rfl
    exact ⟨declared, .refl automaton other⟩

theorem eq_singleton_of_mem_classes {members : SortedSet String}
    (member : members ∈ automaton.classes) (inside : state ∈ members) :
    members = .singleton state := by
  rcases Table.of_mem_classesFrom member with ⟨first, cells, listed, rfl⟩
  have row := rowClass_eq_singleton valid deterministic reduced listed
  rw [row, SortedSet.mem_singleton] at inside
  rw [row, inside]

theorem nodup_className_classes : (automaton.classes.map className).Nodup := by
  let entries := automaton.stateRefinement.result.rows.entries
  have rows : entries.map (fun entry => className (Table.rowClass entry.2)) =
      entries.map Prod.fst :=
    List.map_congr_left fun _ listed =>
      congrArg className (rowClass_eq_singleton valid deterministic reduced listed)
  have part : automaton.classes.Sublist (entries.map fun entry => Table.rowClass entry.2) :=
    Table.sublist_classesFrom
  have named := part.map className
  rw [List.map_map] at named
  exact (SortedMap.nodup_keyList _).sublist (rows ▸ named)

theorem nameOf_naming_classes (declared : state ∈ automaton.states) :
    Minimal.nameOf (naming automaton.classes) state = state := by
  rcases exists_mem_classes valid deterministic declared with ⟨members, member, inside⟩
  rcases exists_find? member inside with ⟨entry, found, listed, within⟩
  have nodup := nodup_className_classes valid deterministic reduced
  rw [nameOf_of_find? found]
  rw [naming_of_nodup nodup, List.mem_map] at listed
  rcases listed with ⟨own, member, rfl⟩
  rw [eq_singleton_of_mem_classes valid deterministic reduced member within]
  rfl

end Singletons

/-- Names that stay as they are merge nothing. -/
theorem Merges.of_fixed {name : String → String} (valid : automaton.Valid)
    (reduced : automaton.Reduced) (fixed : ∀ state, state ∈ automaton.states → name state = state) :
    Merges automaton automaton name where
  starting := (fixed _ valid.starting).symm
  alphabet := rfl
  states state := by
    constructor
    · exact fun declared => ⟨state, declared, (fixed state declared).symm⟩
    · rintro ⟨member, declared, rfl⟩
      exact (fixed member declared).symm ▸ declared
  accepting state := by
    constructor
    · exact fun member => ⟨state, member, (fixed state (valid.accepting state member)).symm⟩
    · rintro ⟨member, accepting, rfl⟩
      exact (fixed member (valid.accepting member accepting)).symm ▸ accepting
  edges state edge := by
    constructor
    · intro member
      have target := fixed edge.target (valid.targets _ _ _ member)
      exact ⟨state, edge.label, edge.target, member, (fixed state (mem_states_of_edge member)).symm,
        target.symm ▸ rfl⟩
    · rintro ⟨member, label, target, edge, rfl, rfl⟩
      rw [fixed member (mem_states_of_edge edge), fixed target (valid.targets _ _ _ edge)]
      exact edge
  alike left right inLeft inRight := by
    rw [fixed left inLeft, fixed right inRight]
    exact ⟨fun same => same ▸ .refl automaton left, reduced left right inLeft inRight⟩

theorem construct_of_smallest (smallest : automaton.Smallest) :
    (construct automaton).result = automaton := by
  have valid := smallest.total.valid
  have deterministic := smallest.total.deterministic
  have merges := merges_construct valid deterministic
  rw [prepared_of_reached smallest.total smallest.reached] at merges
  exact merges.unique (.of_fixed valid smallest.reduced fun _ =>
    nameOf_naming_classes valid deterministic smallest.reduced)

end Minimal

/-- Minimising what was minimised gives back the same automaton, whatever names were made up
for its states. -/
theorem minimise_idempotent (automaton : Automaton) (valid : automaton.isValid = true)
    (deterministic : automaton.isDeterministic = true) :
    ∃ once, automaton.minimise = .ok once ∧
      ∃ twice, once.result.minimise = .ok twice ∧ twice.result = once.result := by
  have sound := isValid_iff.mp valid
  have unique := deterministic_iff.mp deterministic
  have smallest := Minimal.smallest_construct sound unique
  refine ⟨_, minimise_eq valid deterministic, _, minimise_eq (isValid_iff.mpr smallest.total.valid)
    (deterministic_iff.mpr smallest.total.deterministic), ?_⟩
  exact Minimal.construct_of_smallest smallest

/-- The classes of `a` with `bc` and of `ab` with `c` would get one name. Counted up, it is the
name of the dead state. -/
def recountedClasses : Automaton :=
  ofRows "a" ["ab", "c"] ["x", "y"]
    [("a", [(.symbol "x", ["ab"]), (.symbol "y", ["abc₁"])]),
      ("ab", [(.symbol "x", ["bc"]), (.symbol "y", ["abc₁"])]),
      ("abc₁", [(.symbol "x", ["abc₁"]), (.symbol "y", ["abc₁"])]),
      ("bc", [(.symbol "x", ["c"]), (.symbol "y", ["abc₁"])]),
      ("c", [(.symbol "x", ["a"]), (.symbol "y", ["abc₁"])])]

theorem minimise_idempotent_recountedClasses :
    recountedClasses.isValid = true ∧ recountedClasses.isDeterministic = true ∧
      ∃ once, recountedClasses.minimise = .ok once ∧
        ∃ twice, once.result.minimise = .ok twice ∧ twice.result = once.result :=
  ⟨by decide, by decide, minimise_idempotent recountedClasses (by decide) (by decide)⟩

end FormalLanguages.Automaton
