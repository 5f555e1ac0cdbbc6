import FormalLanguages.Proofs.Automaton.Runs
import FormalLanguages.Proofs.Regex.Atoms
import FormalLanguages.Proofs.Regex.Removal
import Mathlib.Data.List.Count

namespace FormalLanguages.Regex.Elimination

/-! # The graph that an automaton starts as

It has two states of its own and accepts the same words as the automaton. -/

/-! ## The two new states -/

theorem lengthened_not_mem {taken : List String} {mark : String} (visible : 0 < mark.length)
    {marks : Nat} {name : String}
    (enough : taken.countP (name.length ≤ ·.length) ≤ marks) :
    lengthened taken mark marks name ∉ taken := by
  induction marks generalizing name with
  | zero =>
      intro member
      have none := List.countP_eq_zero.mp (Nat.le_zero.mp enough) name member
      exact none (decide_eq_true (Nat.le_refl _))
  | succ marks induction =>
      rw [lengthened]
      split
      case isFalse free => exact free
      case isTrue member =>
        -- The name itself is too short to be one of the names that are still in the way.
        apply induction
        have others := List.perm_cons_erase member
        have short : ¬ (name ++ mark).length ≤ name.length := by
          rw [String.length_append]
          omega
        rw [others.countP_eq, List.countP_cons] at enough ⊢
        rw [if_pos (decide_eq_true (Nat.le_refl _))] at enough
        rw [if_neg (by simpa using short)]
        apply Nat.le_trans _ (Nat.le_of_succ_le_succ enough)
        refine List.countP_mono_left fun other _ longer => ?_
        have longer := of_decide_eq_true longer
        rw [String.length_append] at longer
        exact decide_eq_true (by omega)

theorem lengthened_eq_append (taken : List String) (mark : String) (marks : Nat) (name : String) :
    ∃ rest, lengthened taken mark marks name = name ++ rest := by
  induction marks generalizing name with
  | zero => exact ⟨"", (String.append_empty).symm⟩
  | succ marks induction =>
      rw [lengthened]
      split
      · rcases induction (name ++ mark) with ⟨rest, equal⟩
        exact ⟨mark ++ rest, by rw [equal, String.append_assoc]⟩
      · exact ⟨"", (String.append_empty).symm⟩

def newStart (automaton : Automaton) : String := newName automaton startStem startMark

def newAccept (automaton : Automaton) : String := newName automaton acceptStem acceptMark

theorem newName_not_mem {automaton : Automaton} {stem mark : String} (visible : 0 < mark.length) :
    ¬ newName automaton stem mark ∈ automaton.states :=
  lengthened_not_mem visible List.countP_le_length

theorem newStart_ne_newAccept (automaton : Automaton) :
    newStart automaton ≠ newAccept automaton := by
  rcases lengthened_eq_append automaton.states.toList startMark automaton.states.size startStem
    with ⟨startRest, start⟩
  rcases lengthened_eq_append automaton.states.toList acceptMark automaton.states.size acceptStem
    with ⟨acceptRest, accept⟩
  intro equal
  rw [newStart, newAccept, newName, newName, start, accept] at equal
  have texts := congrArg String.toList equal
  rw [String.toList_append, String.toList_append] at texts
  simp [startStem, acceptStem] at texts

/-! ## What the edges carry -/

/-- An expression without references that matches some word. -/
structure Proper (regex : Regex) : Prop where
  closed : regex.references = []
  inhabited : ∃ word, regex.MatchesSymbols word

namespace Proper

variable {left right : Regex}

theorem nil : Proper nil := ⟨rfl, [], .nil⟩

theorem symbol (name : String) : Proper (symbol name) := ⟨rfl, [name], .symbol rfl⟩

theorem sequence (first : Proper left) (second : Proper right) : Proper (sequence left right) := by
  rcases first.inhabited with ⟨before, inFirst⟩
  rcases second.inhabited with ⟨after, inSecond⟩
  refine ⟨?_, before ++ after, .sequence inFirst inSecond⟩
  rw [references, atoms, List.filterMap_append]
  exact List.append_eq_nil_iff.mpr ⟨first.closed, second.closed⟩

theorem alternative (first : Proper left) (second : Proper right) :
    Proper (alternative left right) := by
  rcases first.inhabited with ⟨word, holds⟩
  exact ⟨(first.sequence second).closed, word, .left holds⟩

theorem star (body : Proper left) : Proper (star left) := ⟨body.closed, [], .done⟩

theorem simplify (proper : Proper left) : Proper left.simplify where
  closed := references_simplify proper.closed
  inhabited := proper.inhabited.imp fun _ => matches_simplify_iff.mpr

theorem ofLabel : (label : Label) → Proper (ofLabel label)
  | .epsilon => nil
  | .symbol name => symbol name

end Proper

/-- While some states remain, edges go from them or from the start to them or to the
accepting state. -/
structure Fits (start accept : String) (remaining : List String) (link : Link) (regex : Regex) :
    Prop where
  source : link.source = start ∨ link.source ∈ remaining
  target : link.target = accept ∨ link.target ∈ remaining
  proper : Proper regex

variable {start accept : String} {remaining : List String}

theorem Fits.merge (link : Link) (before after : Regex)
    (first : Fits start accept remaining link before)
    (second : Fits start accept remaining link after) :
    Fits start accept remaining link (alternative before after).simplify :=
  { first with proper := (first.proper.alternative second.proper).simplify }

def AllFit (graph : Graph) (start accept : String) (remaining : List String) : Prop :=
  ∀ link regex, graph.edges.get? link = some regex → Fits start accept remaining link regex

/-! ## The graph of an automaton -/

variable {automaton : Automaton} {graph : Graph} {source target : String}
  {piece word : List String}

theorem carries_addRow {entry : String × SortedSet Edge} :
    (addRow graph entry).Carries source piece target ↔
      (∃ edge, edge ∈ entry.2 ∧ (source = entry.1 ∧ target = edge.target ∧
        (ofLabel edge.label).MatchesSymbols piece)) ∨ graph.Carries source piece target :=
  foldl_iff (fun graph : Graph => graph.Carries source piece target)
    (fun edge : Edge => source = entry.1 ∧ target = edge.target ∧
      (ofLabel edge.label).MatchesSymbols piece) (fun _ _ => Graph.carries_add) _ _

/-- An edge of an automaton consumes what stands on its label. -/
def EdgeCarries (automaton : Automaton) (source : String) (piece : List String)
    (target : String) : Prop :=
  ∃ label, Edge.mk label target ∈ automaton.edges source ∧ (ofLabel label).MatchesSymbols piece

def edgeGraph (automaton : Automaton) : Graph :=
  automaton.rows.entries.foldl addRow ⟨newStart automaton, newAccept automaton, ∅⟩

theorem carries_edgeGraph :
    (edgeGraph automaton).Carries source piece target ↔ EdgeCarries automaton source piece target := by
  refine (foldl_iff (fun graph : Graph => graph.Carries source piece target)
    (fun entry : String × SortedSet Edge => ∃ edge, edge ∈ entry.2 ∧ (source = entry.1 ∧
      target = edge.target ∧ (ofLabel edge.label).MatchesSymbols piece))
    (fun _ _ => carries_addRow) _ _).trans ?_
  constructor
  · rintro (⟨⟨state, row⟩, listed, ⟨label, _⟩, member, rfl, rfl, holds⟩ | ⟨_, none, _⟩)
    · exact ⟨label, Automaton.edges_of_get? (SortedMap.get?_eq_some_iff.mpr listed) ▸ member, holds⟩
    · cases none
  · rintro ⟨label, member, holds⟩
    have listed := SortedMap.get?_eq_some_iff.mp (Automaton.get?_of_mem_edges member)
    exact .inl ⟨_, listed, ⟨label, target⟩, member, rfl, rfl, holds⟩

theorem initial_eq (automaton : Automaton) :
    initial automaton = automaton.accepting.toList.foldl
      (fun graph state => graph.add state (newAccept automaton) nil)
      ((edgeGraph automaton).add (newStart automaton) automaton.starting nil) := rfl

def ends (graph : Graph) : String × String := (graph.start, graph.accept)

theorem ends_addRow (graph : Graph) (entry : String × SortedSet Edge) :
    ends (addRow graph entry) = ends graph := by
  refine foldl_keeps ends ?_ _ _
  exact fun _ _ => rfl

theorem ends_initial (automaton : Automaton) :
    ends (initial automaton) = (newStart automaton, newAccept automaton) := by
  have rows : ends (edgeGraph automaton) = (newStart automaton, newAccept automaton) :=
    foldl_keeps ends ends_addRow _ _
  refine Eq.trans (foldl_keeps ends ?_ _ _) rows
  exact fun _ _ => rfl

theorem carries_initial :
    (initial automaton).Carries source piece target ↔
      (source ∈ automaton.accepting ∧ target = newAccept automaton ∧ piece = []) ∨
      (source = newStart automaton ∧ target = automaton.starting ∧ piece = []) ∨
      EdgeCarries automaton source piece target := by
  rw [initial_eq]
  refine (foldl_iff (fun graph : Graph => graph.Carries source piece target)
    (fun state => source = state ∧ target = newAccept automaton ∧
      MatchesSymbols nil piece) (fun _ _ => Graph.carries_add) _ _).trans ?_
  rw [Graph.carries_add, carries_edgeGraph, MatchesSymbols, matches_nil_iff]
  refine or_congr_left ?_
  constructor
  · rintro ⟨_, member, rfl, rest⟩
    exact ⟨member, rest⟩
  · rintro ⟨member, rest⟩
    exact ⟨source, member, rfl, rest⟩

theorem AllFit.add {graph : Graph} (fit : AllFit graph start accept remaining)
    {source target : String} {regex : Regex}
    (new : Fits start accept remaining ⟨source, target⟩ regex) :
    AllFit (graph.add source target regex) start accept remaining :=
  Graph.forall_edges_add Fits.merge fit new

theorem allFit_initial (valid : automaton.Valid) :
    AllFit (initial automaton) (newStart automaton) (newAccept automaton)
      automaton.states.toList := by
  have rows : AllFit (edgeGraph automaton) (newStart automaton) (newAccept automaton)
      automaton.states.toList := by
    refine List.foldlRecOn (motive := fun graph => AllFit graph _ _ _) _ _
      (fun _ _ none => nomatch none) ?_
    rintro built before ⟨state, row⟩ listed
    refine List.foldlRecOn (motive := fun graph => AllFit graph _ _ _) _ _ before ?_
    rintro grown fit ⟨label, target⟩ member
    have found := SortedMap.get?_eq_some_iff.mpr listed
    have edge := Automaton.edges_of_get? found ▸ member
    exact fit.add ⟨.inr (Automaton.mem_states_iff.mpr ⟨row, found⟩),
      .inr (valid.targets state label target edge), .ofLabel label⟩
  rw [initial_eq]
  refine List.foldlRecOn (motive := fun graph => AllFit graph _ _ _) _ _
    (rows.add ⟨.inl rfl, .inr valid.starting, .nil⟩) ?_
  intro built fit state member
  exact fit.add ⟨.inr (valid.accepting state member), .inl rfl, .nil⟩

/-! ## The graph accepts what the automaton accepts -/

theorem path_initial (path : automaton.Path source word target) :
    (initial automaton).Path source word target := by
  have edgewise {source target : String} {label : Label} {piece : List String}
      (edge : Edge.mk label target ∈ automaton.edges source)
      (holds : (ofLabel label).MatchesSymbols piece) :
      (initial automaton).Carries source piece target :=
    carries_initial.mpr (.inr (.inr ⟨label, edge, holds⟩))
  induction path with
  | stay state => exact .stay state
  | skip edge _ induction => exact (edgewise edge .nil).path_append induction
  | consume edge _ induction => exact (edgewise edge (.symbol rfl)).path_append induction

theorem EdgeCarries.path (carries : EdgeCarries automaton source piece target) :
    automaton.Path source piece target := by
  rcases carries with ⟨label, edge, holds⟩
  cases label with
  | epsilon => exact matches_nil_iff.mp holds ▸ .skip edge (.stay target)
  | symbol name =>
      have same : piece = [name] := matches_symbol_iff.mp holds
      exact same ▸ .consume edge (.stay target)

/-- What a path to the new accepting state says, by where it begins. -/
structure Completes (automaton : Automaton) (source : String) (word : List String) : Prop where
  ofAccept : source = newAccept automaton → word = []
  ofState : source ∈ automaton.states → automaton.AcceptsFrom source word
  ofStart : source = newStart automaton → automaton.Accepts word

theorem completes_of_path (valid : automaton.Valid)
    (path : (initial automaton).Path source word target) (arrives : target = newAccept automaton) :
    Completes automaton source word := by
  have startNew : ¬ newStart automaton ∈ automaton.states := newName_not_mem (by decide)
  have acceptNew : ¬ newAccept automaton ∈ automaton.states := newName_not_mem (by decide)
  have different := newStart_ne_newAccept automaton
  induction path with
  | stay state =>
      subst arrives
      exact ⟨fun _ => rfl, fun declared => absurd declared acceptNew,
        fun same => absurd same.symm different⟩
  | @follow source middle target regex piece word edge holds _ induction =>
      have rest := induction arrives
      rcases carries_initial.mp ⟨regex, edge, holds⟩ with
        ⟨accepting, rfl, rfl⟩ | ⟨rfl, rfl, rfl⟩ | carries
      · have declared := valid.accepting _ accepting
        cases rest.ofAccept rfl
        exact ⟨fun _ => rfl, fun _ => ⟨_, accepting, .stay _⟩,
          fun same => absurd (same ▸ declared) startNew⟩
      · exact ⟨fun same => absurd same different, fun declared => absurd declared startNew,
          fun _ => rest.ofState valid.starting⟩
      · have declared : source ∈ automaton.states := by
          rcases carries with ⟨label, edge, _⟩
          exact Automaton.mem_states_of_edge edge
        have known : middle ∈ automaton.states := by
          rcases carries with ⟨label, edge, _⟩
          exact valid.targets source label middle edge
        rcases rest.ofState known with ⟨last, accepting, path⟩
        exact ⟨fun same => absurd (same ▸ declared) acceptNew,
          fun _ => ⟨last, accepting, carries.path.append path⟩,
          fun same => absurd (same ▸ declared) startNew⟩

theorem start_initial (automaton : Automaton) : (initial automaton).start = newStart automaton :=
  congrArg Prod.fst (ends_initial automaton)

theorem accept_initial (automaton : Automaton) : (initial automaton).accept = newAccept automaton :=
  congrArg Prod.snd (ends_initial automaton)

theorem accepts_initial_iff (valid : automaton.Valid) :
    (initial automaton).Accepts word ↔ automaton.Accepts word := by
  rw [Graph.Accepts, start_initial, accept_initial]
  constructor
  · exact fun path => (completes_of_path valid path rfl).ofStart rfl
  · rintro ⟨last, accepting, path⟩
    have enters : (initial automaton).Carries (newStart automaton) [] automaton.starting :=
      carries_initial.mpr (.inr (.inl ⟨rfl, rfl, rfl⟩))
    have leaves : (initial automaton).Carries last [] (newAccept automaton) :=
      carries_initial.mpr (.inl ⟨accepting, rfl, rfl⟩)
    have whole := enters.path_append ((path_initial path).append leaves.path)
    rwa [List.append_nil] at whole

end FormalLanguages.Regex.Elimination
