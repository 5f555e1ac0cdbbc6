import FormalLanguages.Proofs.Automaton.Minimisation

namespace FormalLanguages.Automaton

/-! # Renaming states

New names that differ give an automaton with the same edges between the new names. Where no
two states are alike, renaming is a merge in which nothing is merged, so it keeps the language. -/

variable {automaton first second : Automaton} {name : String → String} {state : String}

/-! ## Automata with the same members -/

/-- Two complete automata with the same states are the same if the edges of one are in the other. -/
theorem Total.eq_of_edges (total : first.Total) (otherTotal : second.Total)
    (starting : first.starting = second.starting) (alphabet : first.alphabet = second.alphabet)
    (states : ∀ state, state ∈ first.states ↔ state ∈ second.states)
    (accepting : ∀ state, state ∈ first.accepting ↔ state ∈ second.accepting)
    (edges : ∀ state edge, edge ∈ first.edges state → edge ∈ second.edges state) :
    first = second := by
  refine eq_of_members starting alphabet states accepting fun state edge =>
    ⟨edges state edge, fun member => ?_⟩
  rcases edge with ⟨label, target⟩
  cases label with
  | epsilon => exact absurd member (otherTotal.deterministic.loud state target)
  | symbol symbol =>
      have declared := (states state).mpr (mem_states_of_edge member)
      have known : symbol ∈ first.alphabet :=
        alphabet ▸ otherTotal.valid.symbols state symbol target member
      rcases total.edge state declared symbol known with ⟨own, edge⟩
      have same := otherTotal.deterministic.unique _ _ _ _ member (edges state _ edge)
      exact same ▸ edge

/-- A merge is told by the names that it gives. -/
theorem Minimal.Merges.unique (merges : Merges automaton first name)
    (other : Merges automaton second name) : first = second :=
  eq_of_members (merges.starting.trans other.starting.symm)
    (merges.alphabet.trans other.alphabet.symm)
    (fun state => (merges.states state).trans (other.states state).symm)
    (fun state => (merges.accepting state).trans (other.accepting state).symm)
    fun state edge => (merges.edges state edge).trans (other.edges state edge).symm

/-! ## What renaming does -/

section Rename

def renamedEntry (name : String → String) (entry : String × SortedSet Edge) :
    String × SortedSet Edge :=
  (name entry.1, entry.2.map fun edge => ⟨edge.label, name edge.target⟩)

theorem rows_rename : (automaton.rename name).rows =
    SortedMap.ofList (automaton.rows.entries.map (renamedEntry name)) := rfl

theorem map_fst_renamed :
    (automaton.rows.entries.map (renamedEntry name)).map Prod.fst =
      automaton.states.toList.map name := by
  rw [List.map_map]
  exact (List.map_map (f := Prod.fst) (g := name)).symm

theorem mem_states_rename : state ∈ (automaton.rename name).states ↔
    ∃ old, old ∈ automaton.states ∧ state = name old := by
  rw [states, SortedMap.mem_keys, rows_rename, SortedMap.mem_ofList, map_fst_renamed, List.mem_map]
  exact exists_congr fun _ => and_congr_right fun _ => eq_comm

theorem mem_accepting_rename : state ∈ (automaton.rename name).accepting ↔
    ∃ old, old ∈ automaton.accepting ∧ state = name old := by
  rw [rename, SortedSet.mem_map]
  exact exists_congr fun _ => and_congr_right fun _ => eq_comm

variable (differ : Set.InjOn name {state | state ∈ automaton.states})

include differ

theorem nodup_renamed : ((automaton.rows.entries.map (renamedEntry name)).map Prod.fst).Nodup := by
  rw [map_fst_renamed]
  exact (SortedSet.nodup_toList automaton.states).map_on fun _ first _ second same =>
    differ first second same

theorem get?_rename {row : SortedSet Edge} : (automaton.rename name).rows.get? state = some row ↔
    ∃ old, old ∈ automaton.states ∧
      renamedEntry name (old, automaton.edges old) = (state, row) := by
  rw [rows_rename, SortedMap.get?_ofList (nodup_renamed differ), List.mem_map]
  constructor
  · rintro ⟨⟨old, edges⟩, listed, same⟩
    have found := SortedMap.get?_eq_some_iff.mpr listed
    exact ⟨old, mem_states_iff.mpr ⟨edges, found⟩, edges_of_get? found ▸ same⟩
  · rintro ⟨old, declared, same⟩
    rcases mem_states_iff.mp declared with ⟨edges, found⟩
    rw [edges_of_get? found] at same
    exact ⟨(old, edges), SortedMap.get?_eq_some_iff.mp found, same⟩

theorem mem_edges_rename {edge : Edge} : edge ∈ (automaton.rename name).edges state ↔
    ∃ old label target, Edge.mk label target ∈ automaton.edges old ∧ state = name old ∧
      edge = ⟨label, name target⟩ := by
  constructor
  · intro member
    rcases (get?_rename differ).mp (get?_of_mem_edges member) with ⟨old, _, same⟩
    rcases Prod.mk.inj same with ⟨rfl, row⟩
    rw [← row, SortedSet.mem_map] at member
    rcases member with ⟨⟨label, target⟩, inside, rfl⟩
    exact ⟨old, label, target, inside, rfl, rfl⟩
  · rintro ⟨old, label, target, inside, rfl, rfl⟩
    have found := (get?_rename differ).mpr ⟨old, mem_states_of_edge inside, rfl⟩
    rw [edges_of_get? found, SortedSet.mem_map]
    exact ⟨⟨label, target⟩, inside, rfl⟩

theorem merges_rename (reduced : automaton.Reduced) :
    Minimal.Merges automaton (automaton.rename name) name where
  starting := rfl
  alphabet := rfl
  states _ := mem_states_rename
  accepting _ := mem_accepting_rename
  edges _ _ := mem_edges_rename differ
  alike left right inLeft inRight :=
    ⟨fun same => differ inLeft inRight same ▸ .refl automaton left,
      fun alike => congrArg name (reduced left right inLeft inRight alike)⟩

end Rename

end FormalLanguages.Automaton
