import FormalLanguages.Automaton.Minimal
import FormalLanguages.Proofs.Automaton.Equivalence.Classes
import FormalLanguages.Proofs.Name.Naming
import Mathlib.Data.List.Find

namespace FormalLanguages.Automaton.Minimal

/-! # Merging classes of states

Each class becomes one state. Two states are given one name exactly if they accept the
same words, and the edges of a class are those of any of its members. -/

variable {automaton built : Automaton} {classes : List (SortedSet String)}
  {members : SortedSet String} {left right state symbol representative : String}

/-! ## Names -/

theorem naming_eq : naming classes = classes.foldl (Name.assign [] className) [] := rfl

theorem map_fst_naming : (naming classes).map Prod.fst = classes :=
  naming_eq ▸ Name.map_fst_foldl_assign classes []

theorem nodup_naming : ((naming classes).map Prod.snd).Nodup := by
  have start : ([] ++ ([] : Naming).map Prod.snd).Nodup := List.Pairwise.nil
  exact naming_eq ▸ Name.nodup_foldl_assign classes start

theorem mem_classes_of_mem_naming {entry : SortedSet String × String}
    (listed : entry ∈ naming classes) : entry.1 ∈ classes := by
  have member := List.mem_map_of_mem (f := Prod.fst) listed
  rwa [map_fst_naming] at member

theorem exists_find? (member : members ∈ classes) (inside : state ∈ members) :
    ∃ entry, (naming classes).find? (fun entry => state ∈ entry.1) = some entry ∧
      entry ∈ naming classes ∧ state ∈ entry.1 := by
  cases found : (naming classes).find? fun entry => state ∈ entry.1 with
  | some entry =>
      have holds : state ∈ entry.1 := by simpa using List.find?_some found
      exact ⟨entry, rfl, List.mem_of_find?_eq_some found, holds⟩
  | none =>
      have named : members ∈ (naming classes).map Prod.fst := map_fst_naming.symm ▸ member
      rcases List.mem_map.mp named with ⟨entry, listed, rfl⟩
      exact absurd inside (by simpa using List.find?_eq_none.mp found entry listed)

theorem nameOf_of_find? {entry : SortedSet String × String}
    (found : (naming classes).find? (fun entry => state ∈ entry.1) = some entry) :
    nameOf (naming classes) state = entry.2 := by
  rw [nameOf, found]
  rfl

section Names

variable (valid : automaton.Valid) (deterministic : automaton.Deterministic)
  (inLeft : left ∈ automaton.states) (inRight : right ∈ automaton.states)

include valid deterministic inLeft inRight

theorem nameOf_eq_iff :
    nameOf (naming automaton.classes) left = nameOf (naming automaton.classes) right ↔
      automaton.Alike left right := by
  constructor
  · intro same
    rcases exists_mem_classes valid deterministic inLeft with ⟨_, leftClass, inside⟩
    rcases exists_mem_classes valid deterministic inRight with ⟨_, rightClass, within⟩
    rcases exists_find? leftClass inside with ⟨entry, leftFound, listed, leftInside⟩
    rcases exists_find? rightClass within with ⟨other, rightFound, otherListed, rightInside⟩
    rw [nameOf_of_find? leftFound, nameOf_of_find? rightFound] at same
    have equal : entry = other := List.inj_on_of_nodup_map nodup_naming listed otherListed same
    subst equal
    rcases of_mem_classes valid deterministic (mem_classes_of_mem_naming listed) with
      ⟨state, _, only⟩
    exact ((only left).mp leftInside).2.symm.trans ((only right).mp rightInside).2
  · intro alike
    rcases exists_mem_classes valid deterministic inLeft with ⟨_, leftClass, inside⟩
    rcases exists_find? leftClass inside with ⟨entry, found, _, _⟩
    rw [nameOf_of_find? found]
    -- No class separates the two, so looking for either finds the same one.
    refine (nameOf_of_find? (Eq.trans (List.find?_congr fun other listed => ?_) found)).symm
    rcases of_mem_classes valid deterministic (mem_classes_of_mem_naming listed) with
      ⟨state, _, only⟩
    rw [decide_eq_decide, only left, only right]
    exact ⟨fun ⟨_, before⟩ => ⟨inLeft, before.trans alike.symm⟩,
      fun ⟨_, before⟩ => ⟨inRight, before.trans alike⟩⟩

end Names

/-! ## One class -/

def marked (automaton : Automaton) (nameOf : String → String) (representative : String)
    (built : Automaton) : Automaton :=
  let declared := built.declareState (nameOf representative)
  if automaton.isAccepting representative then declared.withAccepting (nameOf representative)
  else declared

def follow (automaton : Automaton) (nameOf : String → String) (representative : String)
    (built : Automaton) (symbol : String) : Automaton :=
  match automaton.target? representative (.symbol symbol) with
  | none => built
  | some target => built.withTransition (nameOf representative) (.symbol symbol) (nameOf target)

variable {nameOf : String → String}

theorem addClass_eq (first : members.toList.head? = some representative) :
    addClass automaton nameOf built members =
      automaton.alphabet.toList.foldl (follow automaton nameOf representative)
        (marked automaton nameOf representative built) := by
  rcases List.head?_eq_some_iff.mp first with ⟨rest, listed⟩
  rw [addClass, listed]
  rfl

/-- A state whose edges stand for those of its class. -/
def Represents (classes : List (SortedSet String)) (representative : String) : Prop :=
  ∃ members, members ∈ classes ∧ members.toList.head? = some representative

theorem foldl_addClass_iff (holds : Automaton → Prop) (marks : String → Prop)
    (adds : String → String → Prop)
    (mark : ∀ representative built,
      holds (marked automaton nameOf representative built) ↔ marks representative ∨ holds built)
    (step : ∀ representative built symbol,
      holds (follow automaton nameOf representative built symbol) ↔
        adds representative symbol ∨ holds built) :
    holds (classes.foldl (addClass automaton nameOf) built) ↔
      (∃ representative, Represents classes representative ∧ (marks representative ∨
        ∃ symbol, symbol ∈ automaton.alphabet.toList ∧ adds representative symbol)) ∨
      holds built := by
  have whole (built : Automaton) (members : SortedSet String) :
      holds (addClass automaton nameOf built members) ↔
        (∃ representative, members.toList.head? = some representative ∧ (marks representative ∨
          ∃ symbol, symbol ∈ automaton.alphabet.toList ∧ adds representative symbol)) ∨
        holds built := by
    cases first : members.toList.head? with
    | none => simp [addClass, List.head?_eq_none_iff.mp first]
    | some representative =>
        rw [addClass_eq first, foldl_iff holds (adds representative) (step representative), mark,
          ← or_assoc, or_comm (b := marks representative)]
        simp
  refine (foldl_iff holds _ whole classes built).trans (or_congr_left ?_)
  constructor
  · rintro ⟨members, member, representative, first, rest⟩
    exact ⟨representative, ⟨members, member, first⟩, rest⟩
  · rintro ⟨representative, ⟨members, member, first⟩, rest⟩
    exact ⟨members, member, representative, first, rest⟩

/-! ## All classes -/

def start (automaton : Automaton) (nameOf : String → String) : Automaton :=
  (new (nameOf automaton.starting)).withSymbols automaton.alphabet.toList

theorem mem_edges_foldl {edge : Edge} :
    edge ∈ (classes.foldl (addClass automaton nameOf) (start automaton nameOf)).edges state ↔
      ∃ representative symbol target, Represents classes representative ∧
        automaton.target? representative (.symbol symbol) = some target ∧
        symbol ∈ automaton.alphabet ∧
        state = nameOf representative ∧ edge = ⟨.symbol symbol, nameOf target⟩ := by
  refine (foldl_addClass_iff (fun built => edge ∈ built.edges state) (fun _ => False)
    (fun representative symbol => ∃ target,
      automaton.target? representative (.symbol symbol) = some target ∧
      (state = nameOf representative ∧ edge = ⟨.symbol symbol, nameOf target⟩)) ?_ ?_).trans ?_
  · intro representative built
    rw [marked]
    split <;> simp
  · intro representative built symbol
    rw [follow]
    cases automaton.target? representative (.symbol symbol) with
    | none => simp
    | some target => simp [mem_edges_withTransition]
  · have none : ¬ edge ∈ (start automaton nameOf).edges state := by
      rw [start, withSymbols_eq]
      exact not_mem_edges_new _ state edge
    rw [or_iff_left none]
    simp only [false_or, SortedSet.mem_toList]
    constructor
    · rintro ⟨representative, represents, symbol, member, target, found, same, equal⟩
      exact ⟨representative, symbol, target, represents, found, member, same, equal⟩
    · rintro ⟨representative, symbol, target, represents, found, member, same, equal⟩
      exact ⟨representative, represents, symbol, member, target, found, same, equal⟩

theorem mem_states_foldl :
    state ∈ (classes.foldl (addClass automaton nameOf) (start automaton nameOf)).states ↔
      (∃ representative, Represents classes representative ∧ (state = nameOf representative ∨
        ∃ symbol, symbol ∈ automaton.alphabet ∧ ∃ target,
          automaton.target? representative (.symbol symbol) = some target ∧
          (state = nameOf representative ∨ state = nameOf target))) ∨
      state = nameOf automaton.starting := by
  refine (foldl_addClass_iff (fun built => state ∈ built.states)
    (fun representative => state = nameOf representative)
    (fun representative symbol => ∃ target,
      automaton.target? representative (.symbol symbol) = some target ∧
      (state = nameOf representative ∨ state = nameOf target)) ?_ ?_).trans (or_congr ?_ ?_)
  · intro representative built
    rw [marked]
    split <;> simp
  · intro representative built symbol
    rw [follow]
    cases automaton.target? representative (.symbol symbol) with
    | none => simp
    | some target => simp [mem_states_withTransition, or_assoc]
  · simp only [SortedSet.mem_toList]
  · rw [start, withSymbols_eq]
    exact List.mem_singleton

theorem mem_accepting_foldl :
    state ∈ (classes.foldl (addClass automaton nameOf) (start automaton nameOf)).accepting ↔
      ∃ representative, Represents classes representative ∧
        representative ∈ automaton.accepting ∧ state = nameOf representative := by
  refine (foldl_addClass_iff (fun built => state ∈ built.accepting)
    (fun representative => representative ∈ automaton.accepting ∧ state = nameOf representative)
    (fun _ _ => False) ?_ ?_).trans ?_
  · intro representative built
    rw [marked]
    split
    case isTrue accepting =>
      rw [and_iff_right (of_decide_eq_true accepting)]
      exact mem_accepting_withAccepting ..
    case isFalse other =>
      have rejects : ¬ representative ∈ automaton.accepting := fun accepting =>
        other (decide_eq_true accepting)
      exact (or_iff_right fun marks => rejects marks.1).symm
  · intro representative built symbol
    rw [follow]
    cases automaton.target? representative (.symbol symbol) with
    | none => simp
    | some target =>
        rw [false_or]
        exact Iff.rfl
  · have none : ¬ state ∈ (start automaton nameOf).accepting := by
      rw [start, withSymbols_eq]
      exact SortedSet.not_mem_empty
    rw [or_iff_left none]
    simp

theorem mem_alphabet_foldl :
    symbol ∈ (classes.foldl (addClass automaton nameOf) (start automaton nameOf)).alphabet ↔
      symbol ∈ automaton.alphabet := by
  refine (foldl_addClass_iff (fun built => symbol ∈ built.alphabet) (fun _ => False)
    (fun representative other => ∃ target,
      automaton.target? representative (.symbol other) = some target ∧ other = symbol)
      ?_ ?_).trans ?_
  · intro representative built
    rw [marked, false_or]
    split <;> exact Iff.rfl
  · intro representative built other
    rw [follow]
    cases automaton.target? representative (.symbol other) with
    | none => simp
    | some target => simp [mem_alphabet_withTransition]
  · have start : symbol ∈ (start automaton nameOf).alphabet ↔ symbol ∈ automaton.alphabet :=
      mem_alphabet_withSymbols.trans
        ((or_iff_left SortedSet.not_mem_empty).trans SortedSet.mem_toList)
    rw [start]
    refine or_iff_right_of_imp ?_
    rintro ⟨_, _, none | ⟨_, member, _, _, rfl⟩⟩
    · exact none.elim
    · exact SortedSet.mem_toList.mp member

theorem starting_foldl :
    (classes.foldl (addClass automaton nameOf) (start automaton nameOf)).starting =
      nameOf automaton.starting := by
  have followed (representative : String) (built : Automaton) (symbol : String) :
      (follow automaton nameOf representative built symbol).starting = built.starting := by
    rw [follow]
    split <;> rfl
  have added (built : Automaton) (members : SortedSet String) :
      (addClass automaton nameOf built members).starting = built.starting := by
    cases first : members.toList.head? with
    | none => rw [addClass, List.head?_eq_none_iff.mp first]
    | some representative =>
        rw [addClass_eq first, foldl_keeps Automaton.starting (followed representative), marked]
        split <;> rfl
  rw [foldl_keeps Automaton.starting added, start, withSymbols_eq]
  rfl

/-! ## The merged automaton -/

/-- States that accept the same words have become one state with the edges of each of them. -/
structure Merges (automaton result : Automaton) (name : String → String) : Prop where
  starting : result.starting = name automaton.starting
  alphabet : result.alphabet = automaton.alphabet
  states : ∀ state, state ∈ result.states ↔
    ∃ member, member ∈ automaton.states ∧ state = name member
  accepting : ∀ state, state ∈ result.accepting ↔
    ∃ member, member ∈ automaton.accepting ∧ state = name member
  edges : ∀ state edge, edge ∈ result.edges state ↔
    ∃ member label target, Edge.mk label target ∈ automaton.edges member ∧ state = name member ∧
      edge = ⟨label, name target⟩
  alike : ∀ left right, left ∈ automaton.states → right ∈ automaton.states →
    (name left = name right ↔ automaton.Alike left right)

section Total

variable (total : automaton.Total)

include total

theorem mem_states_of_represents (represents : Represents automaton.classes representative) :
    representative ∈ automaton.states := by
  rcases represents with ⟨members, member, first⟩
  rcases of_mem_classes total.valid total.deterministic member with ⟨_, _, only⟩
  exact ((only representative).mp (SortedSet.mem_toList.mp (List.mem_of_head? first))).1

theorem exists_represents (declared : state ∈ automaton.states) :
    ∃ representative, Represents automaton.classes representative ∧
      automaton.Alike representative state := by
  rcases exists_mem_classes total.valid total.deterministic declared with ⟨members, member, inside⟩
  rcases of_mem_classes total.valid total.deterministic member with ⟨_, _, only⟩
  cases first : members.toList.head? with
  | none =>
      rw [← SortedSet.mem_toList, List.head?_eq_none_iff.mp first] at inside
      cases inside
  | some representative =>
      have own := SortedSet.mem_toList.mp (List.mem_of_head? first)
      exact ⟨representative, ⟨members, member, first⟩,
        ((only representative).mp own).2.symm.trans ((only state).mp inside).2⟩

section Named

variable (named : ∀ left right, left ∈ automaton.states → right ∈ automaton.states →
  (nameOf left = nameOf right ↔ automaton.Alike left right))

include named

theorem exists_namesake (declared : state ∈ automaton.states) :
    ∃ representative, Represents automaton.classes representative ∧
      automaton.Alike representative state ∧ nameOf state = nameOf representative := by
  rcases exists_represents total declared with ⟨representative, represents, alike⟩
  have known := mem_states_of_represents total represents
  exact ⟨representative, represents, alike, ((named _ _ known declared).mpr alike).symm⟩

theorem mem_states_foldl_classes :
    state ∈ (automaton.classes.foldl (addClass automaton nameOf) (start automaton nameOf)).states ↔
      ∃ member, member ∈ automaton.states ∧ state = nameOf member := by
  rw [mem_states_foldl]
  constructor
  · rintro (⟨representative, represents, same | ⟨_, _, target, found, same | same⟩⟩ | same)
    · exact ⟨representative, mem_states_of_represents total represents, same⟩
    · exact ⟨representative, mem_states_of_represents total represents, same⟩
    · exact ⟨target, total.valid.targets _ _ _ (edge_of_target? found), same⟩
    · exact ⟨_, total.valid.starting, same⟩
  · rintro ⟨member, declared, rfl⟩
    rcases exists_namesake total named declared with ⟨representative, represents, _, same⟩
    exact .inl ⟨representative, represents, .inl same⟩

theorem mem_accepting_foldl_classes :
    state ∈ (automaton.classes.foldl (addClass automaton nameOf)
        (start automaton nameOf)).accepting ↔
      ∃ member, member ∈ automaton.accepting ∧ state = nameOf member := by
  rw [mem_accepting_foldl]
  constructor
  · rintro ⟨representative, _, accepting, same⟩
    exact ⟨representative, accepting, same⟩
  · rintro ⟨member, accepting, rfl⟩
    rcases exists_namesake total named (total.valid.accepting member accepting) with
      ⟨representative, represents, alike, same⟩
    have both := alike []
    rw [total.deterministic.acceptsFrom_nil_iff, total.deterministic.acceptsFrom_nil_iff] at both
    exact ⟨representative, represents, both.mpr accepting, same⟩

theorem mem_edges_foldl_classes {edge : Edge} :
    edge ∈ (automaton.classes.foldl (addClass automaton nameOf)
        (start automaton nameOf)).edges state ↔
      ∃ member label target, Edge.mk label target ∈ automaton.edges member ∧
        state = nameOf member ∧ edge = ⟨label, nameOf target⟩ := by
  rw [mem_edges_foldl]
  constructor
  · rintro ⟨representative, symbol, target, _, found, _, same, equal⟩
    exact ⟨representative, .symbol symbol, target, edge_of_target? found, same, equal⟩
  · rintro ⟨member, label, target, edge, rfl, rfl⟩
    cases label with
    | epsilon => exact absurd edge (total.deterministic.loud _ _)
    | symbol symbol =>
        have listed := total.valid.symbols _ _ _ edge
        rcases exists_namesake total named (mem_states_of_edge edge) with
          ⟨representative, represents, alike, same⟩
        rcases total.edge representative (mem_states_of_represents total represents) symbol listed
          with ⟨other, follows⟩
        have targets := (named other target (total.valid.targets _ _ _ follows)
          (total.valid.targets _ _ _ edge)).mpr (alike.targets total.deterministic follows edge)
        refine ⟨representative, symbol, other, represents,
          total.deterministic.target?_eq_some_iff.mpr follows, listed, same, ?_⟩
        rw [targets]

theorem merges_foldl_classes :
    Merges automaton (automaton.classes.foldl (addClass automaton nameOf) (start automaton nameOf))
      nameOf where
  starting := starting_foldl
  alphabet := SortedSet.ext fun _ => mem_alphabet_foldl
  states _ := mem_states_foldl_classes total named
  accepting _ := mem_accepting_foldl_classes total named
  edges _ _ := mem_edges_foldl_classes total named
  alike := named

end Named

theorem merges_merged :
    Merges automaton (merged automaton automaton.classes)
      (Minimal.nameOf (naming automaton.classes)) :=
  merges_foldl_classes total fun _ _ => nameOf_eq_iff total.valid total.deterministic

end Total

end FormalLanguages.Automaton.Minimal
