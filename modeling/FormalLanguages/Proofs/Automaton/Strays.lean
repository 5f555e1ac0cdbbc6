import FormalLanguages.Proofs.Automaton.Edges
import Mathlib.Data.List.Nodup

namespace FormalLanguages.Automaton

/-! # Transitions that lead nowhere

An automaton whose start state, accepting states and symbols are declared can still have
transitions into states that are not. These are then its only faults, and each of them is one. -/

variable {automaton : Automaton}

/-! ## Transitions -/

/-- A transition is an edge together with the state that it leaves. -/
def transitions (automaton : Automaton) : List (String × Edge) :=
  automaton.rows.entries.flatMap fun (state, row) => row.toList.map (Prod.mk state)

def strays (automaton : Automaton) : List (String × Edge) :=
  automaton.transitions.filter fun transition => transition.2.target ∉ automaton.states

def Fault.ofStray (transition : String × Edge) : Fault :=
  .edgeTarget transition.1 transition.2.label transition.2.target

theorem mem_transitions {state : String} {edge : Edge} :
    (state, edge) ∈ automaton.transitions ↔ edge ∈ automaton.edges state := by
  constructor
  · intro listed
    rcases List.mem_flatMap.mp listed with ⟨⟨other, row⟩, entry, member⟩
    rcases List.mem_map.mp member with ⟨own, inRow, same⟩
    cases same
    rwa [edges_of_get? (SortedMap.get?_eq_some_iff.mpr entry)]
  · intro member
    exact List.mem_flatMap.mpr ⟨(state, automaton.edges state),
      SortedMap.get?_eq_some_iff.mp (get?_of_mem_edges member), List.mem_map_of_mem member⟩

theorem mem_strays {state : String} {edge : Edge} : (state, edge) ∈ automaton.strays ↔
    edge ∈ automaton.edges state ∧ edge.target ∉ automaton.states := by
  rw [strays, List.mem_filter, mem_transitions, decide_eq_true_eq]

theorem nodup_transitions (automaton : Automaton) : automaton.transitions.Nodup := by
  refine List.nodup_flatMap.mpr ⟨fun entry _ => ?_, ?_⟩
  · exact (SortedSet.nodup_toList entry.2).map fun _ _ same => congrArg Prod.snd same
  · have keys := List.pairwise_map.mp (SortedMap.nodup_keyList automaton.rows)
    refine keys.imp fun different transition first second => ?_
    rcases List.mem_map.mp first with ⟨_, _, rfl⟩
    rcases List.mem_map.mp second with ⟨_, _, same⟩
    exact different (congrArg Prod.fst same).symm

theorem nodup_strays (automaton : Automaton) : automaton.strays.Nodup :=
  (nodup_transitions automaton).filter _

/-! ## Faults -/

/-- Edges are ordered by their labels first. -/
theorem toList_eq_flatMap_labels (row : SortedSet Edge) : row.toList =
    (labels row).toList.flatMap fun label => (targetsIn row label).toList.map (Edge.mk label) := by
  refine SortedSet.eq_of_ascending row.ascending (List.pairwise_flatMap.mpr ⟨?_, ?_⟩) ?_
  · intro label _
    refine List.pairwise_map.mpr ((targetsIn row label).ascending.imp fun {left right} before => ?_)
    change (compare label label).then (compare left right) = .lt
    rw [Std.ReflOrd.compare_self]
    exact before
  · refine (labels row).ascending.imp fun {left right} before first inLeft second inRight => ?_
    rcases List.mem_map.mp inLeft with ⟨target, _, rfl⟩
    rcases List.mem_map.mp inRight with ⟨other, _, rfl⟩
    change (compare left right).then (compare target other) = .lt
    rw [before]
    rfl
  · intro edge
    rw [SortedSet.mem_toList, List.mem_flatMap]
    constructor
    · intro member
      exact ⟨edge.label, mem_labels.mpr ⟨edge.target, member⟩,
        List.mem_map.mpr ⟨edge.target, mem_targetsIn.mpr member, rfl⟩⟩
    · rintro ⟨label, _, listed⟩
      rcases List.mem_map.mp listed with ⟨target, inside, rfl⟩
      exact mem_targetsIn.mp inside

theorem labelFaults_of_declared {state : String} {row : SortedSet Edge} {label : Label}
    (declared : ∀ symbol, label = .symbol symbol → symbol ∈ automaton.alphabet) :
    automaton.labelFaults state row label =
      ((targetsIn row label).toList.filter (· ∉ automaton.states)).map
        (.edgeTarget state label) := by
  have own : (label.symbol?.toList.filter fun symbol => symbol ∉ automaton.alphabet) = [] := by
    cases label with
    | epsilon => rfl
    | symbol symbol => simp [Label.symbol?, declared symbol rfl]
  rw [labelFaults, own]
  rfl

theorem rowFaults_of_declared {state : String} {row : SortedSet Edge}
    (declared : ∀ symbol target, Edge.mk (.symbol symbol) target ∈ row →
      symbol ∈ automaton.alphabet) :
    automaton.rowFaults state row =
      (row.toList.filter fun edge => edge.target ∉ automaton.states).map
        fun edge => .ofStray (state, edge) := by
  rw [toList_eq_flatMap_labels row, List.filter_flatMap, List.map_flatMap, rowFaults]
  refine List.flatMap_congr fun label member => ?_
  have known : ∀ symbol, label = .symbol symbol → symbol ∈ automaton.alphabet := by
    rintro symbol rfl
    rcases mem_labels.mp member with ⟨target, inside⟩
    exact declared symbol target inside
  rw [labelFaults_of_declared known, List.filter_map, List.map_map]
  rfl

/-- If nothing else is wrong, there is one fault for each transition into an unknown state. -/
theorem faults_eq_map_strays (starting : automaton.starting ∈ automaton.states)
    (accepting : ∀ state, state ∈ automaton.accepting → state ∈ automaton.states)
    (symbols : ∀ state symbol target,
      Edge.mk (.symbol symbol) target ∈ automaton.edges state → symbol ∈ automaton.alphabet) :
    automaton.faults = automaton.strays.map .ofStray := by
  have starts : [automaton.starting].filter (· ∉ automaton.states) = [] := by simp [starting]
  have accepts : automaton.accepting.toList.filter (· ∉ automaton.states) = [] :=
    List.filter_eq_nil_iff.mpr fun state member => by simp [accepting state member]
  rw [faults, starts, accepts, strays, transitions, List.filter_flatMap, List.map_flatMap]
  refine List.flatMap_congr fun entry listed => ?_
  rcases entry with ⟨state, row⟩
  have own : automaton.edges state = row := edges_of_get? (SortedMap.get?_eq_some_iff.mpr listed)
  change automaton.rowFaults state row = ((row.toList.map (Prod.mk state)).filter _).map _
  rw [rowFaults_of_declared (own ▸ symbols state), List.filter_map, List.map_map]
  rfl

end FormalLanguages.Automaton
