import FormalLanguages.Proofs.Automaton.CrossEquivalence
import FormalLanguages.Proofs.Automaton.Equivalence.Classes
import Mathlib.Data.List.Perm.Basic

namespace FormalLanguages

/-! # The order of the classes

The rows of a table ascend, and the first row of a class is the least of its members. So the
classes come in the order of their least members, until the class of the start state is put
before the others. -/

namespace SortedSet

structure Least (members : SortedSet String) (least : String) : Prop where
  member : least ∈ members
  first : ∀ other, other ∈ members → other = least ∨ compare least other = .lt

/-- The least member of one set comes before that of the other. -/
def Precedes (earlier later : SortedSet String) : Prop :=
  ∃ first second, earlier.Least first ∧ later.Least second ∧ compare first second = .lt

theorem Precedes.irrefl {members : SortedSet String} : ¬ members.Precedes members := by
  rintro ⟨first, second, inFirst, inSecond, before⟩
  rcases inSecond.first first inFirst.member with rfl | after
  · exact not_before_itself before
  · exact not_before_itself (Std.TransCmp.lt_trans before after)

theorem pairwise_precedes {sets : List (SortedSet String)} {leaders : List String}
    (least : List.Forall₂ Least sets leaders) (ascending : Ascending leaders) :
    sets.Pairwise Precedes := by
  induction least with
  | nil => exact .nil
  | cons first others induction =>
      rcases List.pairwise_cons.mp ascending with ⟨before, ascending⟩
      refine List.pairwise_cons.mpr ⟨fun later member => ?_, induction ascending⟩
      rcases exists_image others member with ⟨leader, listed, second⟩
      exact ⟨_, _, first, second, before leader listed⟩

end SortedSet

namespace Automaton

open StateEquivalence

variable {automaton : Automaton}

theorem alike_iff {left right : String} : automaton.Alike left right ↔
    ∀ word, automaton.acceptsFrom left word = automaton.acceptsFrom right word :=
  forall_congr' fun word => by rw [Bool.eq_iff_iff, acceptsFrom_iff, acceptsFrom_iff]

/-! ## Leaders -/

/-- What is known of the states that belong to a class when the other rows are still to be
looked at: no class is cut in two. -/
structure Assigned (automaton : Automaton) (assigned remaining : List String) : Prop where
  covers : ∀ state, state ∈ automaton.states → state ∈ assigned ∨ state ∈ remaining
  closed : ∀ state other, state ∈ automaton.states → other ∈ assigned →
    automaton.Alike state other → state ∈ assigned

theorem Assigned.skip {assigned remaining : List String} {state : String}
    (known : automaton.Assigned assigned (state :: remaining)) (member : state ∈ assigned) :
    automaton.Assigned assigned remaining where
  covers other declared := by
    rcases known.covers other declared with before | later
    · exact .inl before
    · rcases List.mem_cons.mp later with rfl | later
      · exact .inl member
      · exact .inr later
  closed := known.closed

section Members

variable {assigned remaining : List String} {state : String} {members : SortedSet String}
  (known : automaton.Assigned assigned (state :: remaining))
  (exact : ∀ other, other ∈ members ↔ other ∈ automaton.states ∧ automaton.Alike state other)

include known exact

theorem Assigned.add : automaton.Assigned (assigned ++ members.toList) remaining where
  covers other inStates := by
    rcases known.covers other inStates with before | later
    · exact .inl (List.mem_append_left _ before)
    · refine (List.mem_cons.mp later).imp_left fun same => List.mem_append_right _ ?_
      exact (exact other).mpr ⟨inStates, same ▸ .refl automaton state⟩
  closed first second inStates member alike := by
    rcases List.mem_append.mp member with before | inMembers
    · exact List.mem_append_left _ (known.closed first second inStates before alike)
    · have same := ((exact second).mp inMembers).2
      exact List.mem_append_right _ ((exact first).mpr ⟨inStates, same.trans alike.symm⟩)

/-- Members of a new class are not assigned yet, so their rows are still to come. -/
theorem Assigned.least (declared : state ∈ automaton.states) (new : state ∉ assigned)
    (ascending : Ascending (state :: remaining)) : members.Least state where
  member := (exact state).mpr ⟨declared, .refl automaton state⟩
  first other inside := by
    rcases (exact other).mp inside with ⟨inStates, alike⟩
    rcases known.covers other inStates with before | later
    · exact absurd (known.closed state other declared before alike) new
    · exact (List.mem_cons.mp later).imp_right ((List.pairwise_cons.mp ascending).1 other)

end Members

theorem exists_leaders {assigned : List String} {entries : List (String × SortedMap String Bool)}
    (known : automaton.Assigned assigned (entries.map Prod.fst))
    (ascending : Ascending (entries.map Prod.fst))
    (declared : ∀ state cells, (state, cells) ∈ entries → state ∈ automaton.states)
    (exact : ∀ state cells, (state, cells) ∈ entries → ∀ other,
      other ∈ Table.rowClass cells ↔ other ∈ automaton.states ∧ automaton.Alike state other) :
    ∃ leaders, leaders.Sublist (entries.map Prod.fst) ∧
      List.Forall₂ SortedSet.Least (Table.classesFrom assigned entries) leaders := by
  fun_induction Table.classesFrom assigned entries with
  | case1 => exact ⟨[], .slnil, .nil⟩
  -- The row of a state that belongs to a class already leads none.
  | case2 assigned state cells rest member induction =>
      rcases induction (known.skip member) ascending.of_cons
        (fun other row inRest => declared other row (List.mem_cons_of_mem _ inRest))
        (fun other row inRest => exact other row (List.mem_cons_of_mem _ inRest)) with
        ⟨leaders, part, least⟩
      exact ⟨leaders, part.cons _, least⟩
  | case3 assigned state cells rest new members induction =>
      have inStates := declared state cells List.mem_cons_self
      have own := exact state cells List.mem_cons_self
      rcases induction (known.add own) ascending.of_cons
        (fun other row inRest => declared other row (List.mem_cons_of_mem _ inRest))
        (fun other row inRest => exact other row (List.mem_cons_of_mem _ inRest)) with
        ⟨leaders, part, least⟩
      exact ⟨state :: leaders, part.cons_cons _,
        .cons (known.least own inStates new ascending) least⟩

section Classes

variable (valid : automaton.Valid) (deterministic : automaton.Deterministic)

include valid deterministic

theorem pairwise_precedes_classes : automaton.classes.Pairwise SortedSet.Precedes := by
  let rows := automaton.stateRefinement.result.rows
  have ascending : Ascending (rows.entries.map Prod.fst) := rows.ascending
  have start : automaton.Assigned [] (rows.entries.map Prod.fst) := by
    refine ⟨fun state declared => .inr ?_, fun _ _ _ none => absurd none List.not_mem_nil⟩
    rwa [← (spans_stateRefinement valid deterministic).rows] at declared
  rcases exists_leaders start ascending (fun _ _ => mem_states_of_row valid deterministic)
    (fun _ _ listed _ => mem_rowClass_iff valid deterministic listed) with ⟨leaders, part, least⟩
  exact SortedSet.pairwise_precedes least (ascending.sublist part)

/-- A class holds all states that are like one of its members. -/
theorem eq_of_mem_classes {left right : SortedSet String} {state : String}
    (inLeft : left ∈ automaton.classes) (inRight : right ∈ automaton.classes)
    (ofLeft : state ∈ left) (ofRight : state ∈ right) : left = right := by
  rcases of_mem_classes valid deterministic inLeft with ⟨first, _, exactLeft⟩
  rcases of_mem_classes valid deterministic inRight with ⟨second, _, exactRight⟩
  have like : automaton.Alike first second :=
    ((exactLeft state).mp ofLeft).2.trans ((exactRight state).mp ofRight).2.symm
  refine SortedSet.ext fun other => ?_
  rw [exactLeft, exactRight]
  exact and_congr_right fun _ => ⟨like.symm.trans, like.trans⟩

theorem mem_same_class_iff {left right : String} (inLeft : left ∈ automaton.states)
    (inRight : right ∈ automaton.states) :
    (∃ members, members ∈ automaton.classes ∧ left ∈ members ∧ right ∈ members) ↔
      automaton.Alike left right := by
  constructor
  · rintro ⟨members, member, ofLeft, ofRight⟩
    rcases of_mem_classes valid deterministic member with ⟨state, _, exact⟩
    exact ((exact left).mp ofLeft).2.symm.trans ((exact right).mp ofRight).2
  · intro alike
    rcases exists_mem_classes valid deterministic inLeft with ⟨members, member, ofLeft⟩
    rcases of_mem_classes valid deterministic member with ⟨state, _, exact⟩
    exact ⟨members, member, ofLeft,
      (exact right).mpr ⟨inRight, ((exact left).mp ofLeft).2.trans alike⟩⟩

end Classes

/-! ## The class of the start state -/

theorem exists_startClassFirst {start : String} {sets : List (SortedSet String)}
    (found : ∃ members, members ∈ sets ∧ start ∈ members) :
    ∃ first rest, startClassFirst start sets = first :: rest ∧ start ∈ first ∧
      rest.Sublist sets ∧ (first :: rest).Perm sets := by
  cases place : sets.findIdx? (start ∈ ·) with
  | none =>
      rcases found with ⟨members, member, inside⟩
      exact absurd inside (by simpa using List.findIdx?_eq_none_iff.mp place members member)
  | some position =>
      rcases List.findIdx?_eq_some_iff_getElem.mp place with ⟨within, inside, _⟩
      refine ⟨sets[position], sets.eraseIdx position, ?_, of_decide_eq_true inside,
        List.eraseIdx_sublist .., List.getElem_cons_eraseIdx_perm within⟩
      rw [startClassFirst, place]
      simp [within]

theorem equivalenceClasses_eq (valid : automaton.isValid = true)
    (deterministic : automaton.isDeterministic = true) :
    automaton.equivalenceClasses = .ok (startClassFirst automaton.starting automaton.classes) := by
  rw [equivalenceClasses, stateEquivalence, requireDeterministic_eq_ok valid deterministic]
  rfl

/-- The classes of a valid deterministic automaton part its states by the words that are
accepted from them. The class of the start state comes first, and the others in the order of
their least members. -/
theorem equivalenceClasses_exact (automaton : Automaton) (valid : automaton.isValid = true)
    (deterministic : automaton.isDeterministic = true) :
    ∃ start others, automaton.equivalenceClasses = .ok (start :: others) ∧
      (∀ members, members ∈ start :: others → ∃ state, state ∈ members) ∧
      (start :: others).Pairwise (fun left right => ∀ state, state ∈ left → ¬ state ∈ right) ∧
      (∀ state, state ∈ automaton.states ↔
        ∃ members, members ∈ start :: others ∧ state ∈ members) ∧
      (∀ left right, left ∈ automaton.states → right ∈ automaton.states →
        ((∃ members, members ∈ start :: others ∧ left ∈ members ∧ right ∈ members) ↔
          ∀ word, automaton.acceptsFrom left word = automaton.acceptsFrom right word)) ∧
      automaton.starting ∈ start ∧ others.Pairwise SortedSet.Precedes := by
  have sound := isValid_iff.mp valid
  have unique := deterministic_iff.mp deterministic
  have ordered := pairwise_precedes_classes sound unique
  rcases exists_startClassFirst (exists_mem_classes sound unique sound.starting) with
    ⟨start, others, listed, inStart, part, same⟩
  refine ⟨start, others, listed ▸ equivalenceClasses_eq valid deterministic, fun members member => ?_,
    ?_, fun state => ⟨fun declared => ?_, ?_⟩, fun left right inLeft inRight => ?_, inStart,
    ordered.sublist part⟩
  · rcases of_mem_classes sound unique (same.mem_iff.mp member) with ⟨state, declared, exact⟩
    exact ⟨state, (exact state).mpr ⟨declared, .refl automaton state⟩⟩
  · have disjoint : automaton.classes.Pairwise fun left right =>
        ∀ state, state ∈ left → ¬ state ∈ right := by
      refine ordered.imp_of_mem fun inLeft inRight before state ofLeft ofRight => ?_
      exact SortedSet.Precedes.irrefl
        (eq_of_mem_classes sound unique inLeft inRight ofLeft ofRight ▸ before)
    exact same.symm.pairwise disjoint fun apart state ofRight ofLeft => apart state ofLeft ofRight
  · rcases exists_mem_classes sound unique declared with ⟨members, member, inside⟩
    exact ⟨members, same.mem_iff.mpr member, inside⟩
  · rintro ⟨members, member, inside⟩
    rcases of_mem_classes sound unique (same.mem_iff.mp member) with ⟨_, _, exact⟩
    exact ((exact state).mp inside).1
  · simp only [same.mem_iff, mem_same_class_iff sound unique inLeft inRight, alike_iff]

/-- The start state is not in the first class to be found, and dead states are alike whether
they have edges or not. -/
def lateStart : Automaton :=
  ofRows "m" ["c", "z"] ["x", "y"]
    [("a", [(.symbol "x", ["z"])]), ("b", []), ("c", [(.symbol "y", ["b"])]),
      ("d", [(.symbol "x", ["d"])]), ("k", [(.symbol "x", ["c"])]),
      ("m", [(.symbol "x", ["z"]), (.symbol "y", ["a"])]), ("z", [(.symbol "y", ["d"])])]

theorem equivalenceClasses_lateStart :
    lateStart.isValid = true ∧ lateStart.isDeterministic = true ∧
      lateStart.equivalenceClasses.toOption.map (List.map SortedSet.toList) =
        some [["m"], ["a", "k"], ["b", "d"], ["c", "z"]] ∧
      ∃ start others, lateStart.equivalenceClasses = .ok (start :: others) ∧
        (∀ members, members ∈ start :: others → ∃ state, state ∈ members) ∧
        (start :: others).Pairwise (fun left right => ∀ state, state ∈ left → ¬ state ∈ right) ∧
        (∀ state, state ∈ lateStart.states ↔
          ∃ members, members ∈ start :: others ∧ state ∈ members) ∧
        (∀ left right, left ∈ lateStart.states → right ∈ lateStart.states →
          ((∃ members, members ∈ start :: others ∧ left ∈ members ∧ right ∈ members) ↔
            ∀ word, lateStart.acceptsFrom left word = lateStart.acceptsFrom right word)) ∧
        lateStart.starting ∈ start ∧ others.Pairwise SortedSet.Precedes :=
  ⟨by decide, by decide, by decide +kernel,
    equivalenceClasses_exact lateStart (by decide) (by decide)⟩

end Automaton

end FormalLanguages
