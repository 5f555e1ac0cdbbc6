import FormalLanguages.Proofs.Grammar.Passes

namespace FormalLanguages.Grammar

/-! # Grammars that change step by step

A step of a pass exchanges the alternatives of one non-terminal. What it introduces is declared
after everything else, and is not touched again. -/

variable {given before between after last : Grammar}
  {names joining heads introduced removed : List String} {shown : List Grammar}
  {head name : String}

/-! ## What is introduced -/

/-- Names are declared and heads get alternatives, after those that were there before. -/
structure Appends (before : Grammar) (names joining : List String) (after : Grammar) : Prop where
  start : after.start = before.start
  terminals : after.terminals = before.terminals
  nonTerminals : after.nonTerminals.toList = before.nonTerminals.toList ++ names
  heads : after.heads = before.heads ++ joining
  alternatives : ∀ name, name ∉ joining → after.alternatives name = before.alternatives name

namespace Appends

theorem refl (grammar : Grammar) : Appends grammar [] [] grammar :=
  ⟨rfl, rfl, (List.append_nil _).symm, (List.append_nil _).symm, fun _ _ => rfl⟩

theorem trans {later tails : List String} (first : Appends before names joining between)
    (second : Appends between later tails after) :
    Appends before (names ++ later) (joining ++ tails) after where
  start := second.start.trans first.start
  terminals := second.terminals.trans first.terminals
  nonTerminals := by rw [second.nonTerminals, first.nonTerminals, List.append_assoc]
  heads := by rw [second.heads, first.heads, List.append_assoc]
  alternatives name kept := by
    rw [List.mem_append, not_or] at kept
    rw [second.alternatives name kept.2, first.alternatives name kept.1]

theorem addNonTerminal (free : ¬ name ∈ before.nonTerminals) :
    Appends before [name] [] (before.addNonTerminal name) :=
  ⟨rfl, rfl, DeclaredSet.toList_insert free, (List.append_nil _).symm, fun _ _ => rfl⟩

theorem setAlternatives {alternatives : List Alternative} (new : ¬ head ∈ before.productions) :
    Appends before [] [head] (before.setAlternatives head alternatives) where
  start := rfl
  terminals := rfl
  nonTerminals := (List.append_nil _).symm
  heads := DeclaredMap.keys_insert.trans (if_neg new)
  alternatives name other := by
    rw [alternatives_setAlternatives, if_neg fun same => other (List.mem_singleton.mpr same.symm)]

theorem mem_nonTerminals (appends : Appends before names joining after) :
    name ∈ after.nonTerminals ↔ name ∈ before.nonTerminals ∨ name ∈ names := by
  rw [← DeclaredSet.mem_toList, appends.nonTerminals, List.mem_append, DeclaredSet.mem_toList]

theorem mem_heads (appends : Appends before names joining after) :
    head ∈ after.productions ↔ head ∈ before.productions ∨ head ∈ joining := by
  change head ∈ after.heads ↔ head ∈ before.heads ∨ _
  rw [appends.heads, List.mem_append]

end Appends

/-- New non-terminals are declared and get alternatives. -/
def Joins (before after : Grammar) : Prop :=
  ∃ introduced, Appends before introduced introduced after

namespace Joins

theorem refl (grammar : Grammar) : Joins grammar grammar := ⟨[], .refl grammar⟩

theorem trans (first : Joins before between) (second : Joins between after) : Joins before after :=
  first.elim fun _ first => second.elim fun _ second => ⟨_, first.trans second⟩

theorem headsDeclared (joins : Joins before after) (declared : before.HeadsDeclared) :
    after.HeadsDeclared := fun head inside => joins.elim fun _ appends =>
  appends.mem_nonTerminals.mpr ((appends.mem_heads.mp inside).imp_left (declared head))

end Joins

/-! ## One step -/

/-- One head gets other alternatives, and what is introduced gets its first ones. -/
structure Reworks (before : Grammar) (head : String) (introduced : List String)
    (after : Grammar) : Prop where
  start : after.start = before.start
  terminals : after.terminals = before.terminals
  nonTerminals : after.nonTerminals.toList = before.nonTerminals.toList ++ introduced
  heads : after.heads = before.heads ++ introduced
  changed : after.alternatives head ≠ before.alternatives head
  others : ∀ name, name ≠ head → name ∉ introduced →
    after.alternatives name = before.alternatives name

theorem Appends.reworks {alternatives : List Alternative}
    (appends : Appends before introduced introduced between) (known : head ∈ before.productions)
    (changed : alternatives ≠ before.alternatives head) :
    Reworks before head introduced (between.setAlternatives head alternatives) where
  start := appends.start
  terminals := appends.terminals
  nonTerminals := appends.nonTerminals
  heads := (DeclaredMap.keys_insert.trans (if_pos (appends.mem_heads.mpr (.inl known)))).trans
    appends.heads
  changed := by rwa [alternatives_setAlternatives, if_pos rfl]
  others name different old := by
    rw [alternatives_setAlternatives, if_neg (Ne.symm different), appends.alternatives name old]

theorem Reworks.not_mem_introduced (reworks : Reworks before head introduced after)
    (old : name ∈ before.nonTerminals) : name ∉ introduced := fun new => by
  have nodup := after.nonTerminals.nodup
  rw [reworks.nonTerminals] at nodup
  exact (List.nodup_append.mp nodup).2.2 name old name new rfl

/-- Non-terminals are taken away with their productions. -/
structure Drops (before : Grammar) (removed : List String) (after : Grammar) : Prop where
  start : after.start = before.start
  terminals : after.terminals = before.terminals
  nonTerminals : after.nonTerminals.toList = before.nonTerminals.toList.filter (· ∉ removed)
  productions : after.productions.entries =
    before.productions.entries.filter fun production => production.1 ∉ removed

theorem drops_foldl (removed : List String) (grammar : Grammar) :
    Drops grammar removed (removed.foldl dropNonTerminal grammar) := by
  induction removed generalizing grammar with
  | nil => exact ⟨rfl, rfl, by simp, by simp⟩
  | cons name rest induction =>
      have later := induction (grammar.dropNonTerminal name)
      refine ⟨later.start, later.terminals, ?_, ?_⟩
      · rw [List.foldl_cons, later.nonTerminals, dropNonTerminal, DeclaredSet.erase,
          List.filter_filter]
        simp [Bool.and_comm]
      · rw [List.foldl_cons, later.productions, dropNonTerminal, DeclaredMap.erase,
          List.filter_filter]
        simp [Bool.and_comm]

/-! ## All steps of a pass -/

/-- Every step is about another head of the given grammar. -/
inductive Reworkings (given : Grammar) : List String → List Grammar → Grammar → Prop
  | start : Reworkings given [] [] given
  | rework {heads introduced : List String} {shown : List Grammar} {before after : Grammar}
      {head : String} (earlier : Reworkings given heads shown before)
      (old : head ∈ given.nonTerminals) (new : head ∉ heads)
      (reworks : Reworks before head introduced after) :
      Reworkings given (heads ++ [head]) (shown ++ [after]) after

namespace Reworkings

theorem nonTerminals (all : Reworkings given heads shown last) (old : name ∈ given.nonTerminals) :
    name ∈ last.nonTerminals := by
  induction all with
  | start => exact old
  | rework _ _ _ reworks induction =>
      rw [← DeclaredSet.mem_toList, reworks.nonTerminals]
      exact List.mem_append_left _ induction

/-- What a head had at first is lost once a step is about it. -/
theorem alternatives_eq_iff (all : Reworkings given heads shown last)
    (old : name ∈ given.nonTerminals) :
    last.alternatives name = given.alternatives name ↔ name ∉ heads := by
  -- What a step introduces is new, so of the given names only its own head changes.
  induction all with
  | start => exact iff_of_true rfl List.not_mem_nil
  | @rework heads introduced shown before after head earlier _ new reworks induction =>
      rw [List.mem_append, List.mem_singleton]
      by_cases own : name = head
      · subst own
        rw [← induction.mpr new]
        exact iff_of_false reworks.changed fun none => none (.inr rfl)
      · have kept := reworks.not_mem_introduced (earlier.nonTerminals old)
        rw [reworks.others name own kept, induction, or_iff_left own]

theorem productions (all : Reworkings given heads shown last) (old : name ∈ given.productions) :
    name ∈ last.productions := by
  induction all with
  | start => exact old
  | rework _ _ _ reworks induction =>
      change name ∈ Grammar.heads _
      rw [reworks.heads]
      exact List.mem_append_left _ induction

theorem headsDeclared (all : Reworkings given heads shown last) (declared : given.HeadsDeclared) :
    last.HeadsDeclared := by
  induction all with
  | start => exact declared
  | @rework _ introduced _ before after _ _ _ _ reworks induction =>
      intro name inside
      change name ∈ after.heads at inside
      rw [reworks.heads] at inside
      rw [← DeclaredSet.mem_toList, reworks.nonTerminals]
      exact List.mem_append.mpr ((List.mem_append.mp inside).imp_left (induction name))

theorem heads_subset (all : Reworkings given heads shown last) :
    ∀ head, head ∈ heads → head ∈ given.nonTerminals := by
  induction all with
  | start => exact fun _ none => absurd none List.not_mem_nil
  | rework _ old _ _ induction =>
      intro head member
      rcases List.mem_append.mp member with before | same
      · exact induction head before
      · exact List.mem_singleton.mp same ▸ old

theorem reached (all : Reworkings given heads shown last) : shown.getLast?.getD given = last := by
  cases all with
  | start => rfl
  | rework => rw [List.getLast?_concat, Option.getD_some]

theorem exists_head (all : Reworkings given heads shown last) (some : shown ≠ []) :
    ∃ head, head ∈ heads := by
  cases all with
  | start => exact absurd rfl some
  | rework => exact ⟨_, List.mem_append_right _ (List.mem_singleton.mpr rfl)⟩

end Reworkings

/-- Where something is removed, that is the last step. -/
inductive Told (given : Grammar) : List String → List Grammar → Grammar → Prop
  | reworked {heads : List String} {shown : List Grammar} {last : Grammar}
      (all : Reworkings given heads shown last) : Told given [] shown last
  | dropped {heads removed : List String} {shown : List Grammar} {before last : Grammar}
      (earlier : Reworkings given heads shown before) (some : removed ≠ [])
      (declared : ∀ name, name ∈ removed → name ∈ given.nonTerminals)
      (untouched : ∀ head, head ∈ heads → head ∉ removed) (drops : Drops before removed last) :
      Told given removed (shown ++ [last]) last

theorem Told.reached (told : Told given removed shown last) : shown.getLast?.getD given = last := by
  cases told with
  | reworked all => exact all.reached
  | dropped => rw [List.getLast?_concat, Option.getD_some]

theorem same_self (grammar : Grammar) : grammar.same grammar = true := by
  simp [same, DeclaredSet.sameMembers_iff, DeclaredMap.sameEntries_iff]

/-- Not even in another order of declarations is the grammar the given one, once a step is
made. -/
theorem Told.eq_nil (told : Told given removed shown last) (unchanged : last.same given = true) :
    shown = [] := by
  simp only [same, Bool.and_eq_true, DeclaredSet.sameMembers_iff, DeclaredMap.sameEntries_iff]
    at unchanged
  rcases unchanged with ⟨⟨⟨nonTerminals, -⟩, productions⟩, -⟩
  have alternatives (name : String) : last.alternatives name = given.alternatives name := by
    rw [Grammar.alternatives, productions name, Grammar.alternatives]
  cases told with
  | reworked all =>
      by_contra some
      rcases all.exists_head some with ⟨head, member⟩
      exact (all.alternatives_eq_iff (all.heads_subset head member)).mp (alternatives head) member
  | dropped earlier some declared untouched drops =>
      rcases List.exists_mem_of_ne_nil _ some with ⟨name, member⟩
      have stays := (nonTerminals name).mpr (declared name member)
      rw [← DeclaredSet.mem_toList, drops.nonTerminals, List.mem_filter, decide_eq_true_eq] at stays
      exact absurd member stays.2

end FormalLanguages.Grammar
