import FormalLanguages.Automaton.Subset
import FormalLanguages.Proofs.Automaton.Runs
import FormalLanguages.Proofs.Name.Naming
import Mathlib.Data.List.Sublists

namespace FormalLanguages.Automaton.Subset

/-! # Sets of states and their names

The subset construction meets finitely many sets, each holding states that the
automaton mentions. No two of them get the same name, and none gets the name of the
sink. -/

variable {automaton : Automaton}

/-! ## The sets that are reached -/

def mentioned (automaton : Automaton) : List String :=
  automaton.starting :: automaton.edgeTargets

theorem mem_mentioned_of_path {source target : String} {word : List String}
    (path : automaton.Path source word target) (member : source ∈ mentioned automaton) :
    target ∈ mentioned automaton := by
  induction path with
  | stay => exact member
  | skip edge _ induction => exact induction (List.mem_cons_of_mem _ (mem_edgeTargets edge))
  | consume edge _ induction => exact induction (List.mem_cons_of_mem _ (mem_edgeTargets edge))

theorem mem_successors {current set : SortedSet String} :
    set ∈ successors automaton current ↔
      (∃ symbol, symbol ∈ automaton.alphabet ∧ automaton.step current symbol = set) ∧
        set.isEmpty = false := by
  simp only [successors, List.mem_filter, List.mem_map, SortedSet.mem_toList, Bool.not_eq_true']

theorem mentioned_of_reachable {set : SortedSet String}
    (reached : Reachable (successors automaton) [initial automaton] set) :
    ∀ state, state ∈ set → state ∈ mentioned automaton := by
  induction reached with
  | seed member =>
      rcases List.mem_singleton.mp member with rfl
      intro state inside
      rcases mem_closure.mp inside with ⟨source, start, path⟩
      exact mem_mentioned_of_path path (List.mem_singleton.mp start ▸ List.mem_cons_self)
  | follow _ member induction =>
      rcases mem_successors.mp member with ⟨⟨symbol, _, rfl⟩, _⟩
      intro state inside
      rcases mem_step.mp inside with ⟨source, before, path⟩
      exact mem_mentioned_of_path path (induction source before)

/-- All sets of mentioned states, some of them several times. -/
def candidates (automaton : Automaton) : List (SortedSet String) :=
  (mentioned automaton).sublists.map SortedSet.ofList

theorem length_candidates :
    (candidates automaton).length = Nat.pow 2 (1 + automaton.edgeCount) := by
  rw [candidates, List.length_map, List.length_sublists, mentioned, List.length_cons,
    length_edgeTargets, Nat.add_comm]
  rfl

theorem mem_candidates {set : SortedSet String}
    (inside : ∀ state, state ∈ set → state ∈ mentioned automaton) :
    set ∈ candidates automaton := by
  refine List.mem_map.mpr ⟨(mentioned automaton).filter (· ∈ set),
    List.mem_sublists.mpr List.filter_sublist, SortedSet.ext fun state => ?_⟩
  rw [SortedSet.mem_ofList, List.mem_filter, decide_eq_true_eq]
  exact ⟨And.right, fun member => ⟨inside state member, member⟩⟩

theorem covers_reachable (set : SortedSet String)
    (reached : Reachable (successors automaton) [initial automaton] set) :
    set ∈ candidates automaton :=
  mem_candidates (mentioned_of_reachable reached)

theorem mem_reached_iff {set : SortedSet String} :
    set ∈ reached automaton ↔ Reachable (successors automaton) [initial automaton] set :=
  Reachable.mem_list_iff covers_reachable (Nat.le_of_eq length_candidates)

theorem initial_mem_reached : initial automaton ∈ reached automaton :=
  mem_reached_iff.mpr (.seed (List.mem_singleton.mpr rfl))

theorem nonempty_of_mem_reached {set : SortedSet String} (member : set ∈ reached automaton) :
    ∃ state, state ∈ set := by
  cases mem_reached_iff.mp member with
  | seed start =>
      rcases List.mem_singleton.mp start with rfl
      exact ⟨automaton.starting, mem_closure.mpr ⟨_, List.mem_singleton.mpr rfl, .stay _⟩⟩
  | follow _ member => exact SortedSet.isEmpty_eq_false_iff.mp (mem_successors.mp member).2

/-! ## Names -/

section Naming

variable {sink : String} {sets : List (SortedSet String)} {set left right : SortedSet String}

theorem naming_eq : naming sink sets = sets.foldl (Name.assign [sink] name) [] := rfl

theorem map_fst_naming : (naming sink sets).map Prod.fst = sets :=
  naming_eq ▸ Name.map_fst_foldl_assign sets []

theorem nodup_naming : (sink :: (naming sink sets).map Prod.snd).Nodup := by
  have start : ([sink] ++ ([] : Naming).map Prod.snd).Nodup := List.pairwise_singleton _ _
  exact naming_eq ▸ Name.nodup_foldl_assign sets start

theorem nameOf_mem (member : set ∈ sets) :
    (set, nameOf (naming sink sets) sink set) ∈ naming sink sets := by
  have named : ∃ entry, entry ∈ naming sink sets ∧ entry.1 = set := by
    have listed : set ∈ (naming sink sets).map Prod.fst := map_fst_naming.symm ▸ member
    exact List.mem_map.mp listed
  cases found : (naming sink sets).find? fun entry => entry.1 = set with
  | none =>
      rcases named with ⟨entry, inside, same⟩
      exact absurd same (by simpa using List.find?_eq_none.mp found entry inside)
  | some entry =>
      have same : entry.1 = set := by simpa using List.find?_some found
      rw [nameOf, found, ← same]
      exact List.mem_of_find?_eq_some found

theorem nameOf_eq_sink (foreign : ¬ set ∈ sets) : nameOf (naming sink sets) sink set = sink := by
  have unnamed : (naming sink sets).find? (fun entry => entry.1 = set) = none := by
    refine List.find?_eq_none.mpr fun entry inside same => foreign ?_
    have listed := List.mem_map_of_mem (f := Prod.fst) inside
    rw [map_fst_naming, of_decide_eq_true same] at listed
    exact listed
  rw [nameOf, unnamed]
  rfl

theorem nameOf_ne_sink (member : set ∈ sets) : nameOf (naming sink sets) sink set ≠ sink :=
  fun same => (List.nodup_cons.mp nodup_naming).1
    (List.mem_map.mpr ⟨_, nameOf_mem member, same⟩)

theorem nameOf_injective (inLeft : left ∈ sets) (inRight : right ∈ sets)
    (equal : nameOf (naming sink sets) sink left = nameOf (naming sink sets) sink right) :
    left = right :=
  congrArg Prod.fst (List.inj_on_of_nodup_map (List.nodup_cons.mp nodup_naming).2
    (nameOf_mem inLeft) (nameOf_mem inRight) equal)

end Naming

end FormalLanguages.Automaton.Subset
