import FormalLanguages.Proofs.Automaton.Determinisation
import FormalLanguages.Proofs.Automaton.Minimisation
import FormalLanguages.Proofs.Automaton.Table.StateNames

namespace FormalLanguages.Automaton

/-! # Names of constructed automata

What holds of all names that are made of the states of an automaton holds of the states of the
determinised and of the minimised automaton. -/

variable {automaton : Automaton} {state : String} {holds : String → Prop}

theorem holds_sinkName (kept : Name.KeptByCounting holds) (sink : holds emptySetName) :
    holds automaton.sinkName := kept.freshOrSelf sink automaton.states.toList

/-! ## Sets of states -/

namespace Subset

theorem mem_states_of_mem_mentioned (valid : automaton.Valid) (member : state ∈ mentioned automaton) :
    state ∈ automaton.states := by
  rcases List.mem_cons.mp member with rfl | target
  · exact valid.starting
  · rcases List.mem_flatMap.mp target with ⟨row, listed, inside⟩
    rcases SortedMap.mem_values_iff.mp listed with ⟨source, found⟩
    rcases List.mem_map.mp inside with ⟨edge, inRow, rfl⟩
    exact valid.targets source edge.label edge.target (edges_of_get? found ▸ inRow)

theorem exists_toList (valid : automaton.Valid) {set : SortedSet String}
    (member : set ∈ reached automaton) : ∃ first rest, set.toList = first :: rest ∧
      ∀ name, name ∈ first :: rest → name ∈ automaton.states := by
  rcases nonempty_of_mem_reached member with ⟨state, inside⟩
  rcases List.exists_cons_of_ne_nil (List.ne_nil_of_mem (SortedSet.mem_toList.mpr inside)) with
    ⟨first, rest, whole⟩
  refine ⟨first, rest, whole, fun name listed => mem_states_of_mem_mentioned valid ?_⟩
  rw [← whole] at listed
  exact mentioned_of_reachable (mem_reached_iff.mp member) name (SortedSet.mem_toList.mp listed)

theorem holds_of_mem_states_result (valid : automaton.Valid) (kept : Name.KeptByCounting holds)
    (sink : holds emptySetName)
    (joined : ∀ {first : String} {rest : List String},
      (∀ name, name ∈ first :: rest → holds name) → holds (Text.joined "," (first :: rest)))
    (named : ∀ state, state ∈ automaton.states → holds state)
    (declared : state ∈ (construct automaton).result.states) : holds state := by
  rcases mem_states_result.mp declared with ⟨set, member | ⟨rfl, _⟩, rfl⟩
  · have listed : (set, stateName automaton set) ∈
        naming automaton.sinkName (reached automaton) := nameOf_mem member
    rw [naming_eq] at listed
    rcases Name.eq_freshOrSelf_of_mem_foldl_assign listed with none | ⟨taken, same⟩
    · exact absurd none List.not_mem_nil
    · rcases exists_toList valid member with ⟨first, rest, whole, known⟩
      have counted : stateName automaton set = Name.freshOrSelf (name set) taken := same
      rw [counted, name, whole]
      exact kept.freshOrSelf (joined fun other listed => named other (known other listed)) taken
  · rw [stateName_empty]
    exact holds_sinkName kept sink

end Subset

/-! ## Classes of states -/

namespace Minimal

variable (valid : automaton.Valid) (deterministic : automaton.Deterministic)

omit valid deterministic in
theorem holds_of_mem_states_prepared (kept : Name.KeptByCounting holds) (sink : holds emptySetName)
    (named : ∀ state, state ∈ automaton.states → holds state)
    (declared : state ∈ (prepared automaton).states) : holds state := by
  have completes := completes_completed automaton.withoutUnreachable
  rcases (completes.states state).mp declared with known | isSink
  · exact named state (mem_states_withoutUnreachable.mp known).1
  · rw [completed] at isSink
    split at isSink
    · exact Option.some.inj isSink ▸ holds_sinkName kept sink
    · cases isSink

include valid deterministic

/-- A class is called like its members one after another, and no member ends in an arrow that
the next one completes. -/
theorem isStateName_of_mem_states_construct
    (named : ∀ state, state ∈ automaton.states → Table.IsWholeName state)
    (declared : state ∈ (construct automaton).result.states) : Table.IsStateName state := by
  have total := total_prepared valid deterministic
  have whole : ∀ other, other ∈ (prepared automaton).states → Table.IsWholeName other :=
    fun _ => holds_of_mem_states_prepared Table.isWholeName_keptByCounting
      Table.isWholeName_emptySetName named
  rcases ((merges_construct valid deterministic).states state).mp declared with
    ⟨member, known, same⟩
  rcases exists_mem_classes total.valid total.deterministic known with ⟨_, isClass, inside⟩
  rcases exists_find? isClass inside with ⟨entry, found, listed, inEntry⟩
  rcases of_mem_classes total.valid total.deterministic (mem_classes_of_mem_naming listed) with
    ⟨_, _, only⟩
  rw [same, nameOf_of_find? found]
  rw [naming_eq] at listed
  rcases Name.eq_freshOrSelf_of_mem_foldl_assign listed with none | ⟨taken, counted⟩
  · exact absurd none List.not_mem_nil
  · rcases List.exists_cons_of_ne_nil (List.ne_nil_of_mem (SortedSet.mem_toList.mpr inEntry)) with
      ⟨first, rest, members⟩
    rw [counted, className, members]
    have joined : Table.IsStateName (Text.concatenated (first :: rest)) := by
      refine Table.isStateName_concatenated fun other inMembers => ?_
      rw [← members] at inMembers
      exact whole other ((only other).mp (SortedSet.mem_toList.mp inMembers)).1
    exact Table.isStateName_keptByCounting.freshOrSelf joined taken

end Minimal

end FormalLanguages.Automaton
