import FormalLanguages.Proofs.Grammar.Changes
import FormalLanguages.Proofs.Grammar.NormalForm.Chomsky

namespace FormalLanguages.Grammar

/-! # The steps of a pass tell the whole change

A pass records a step exactly when it gives a head other alternatives. So the recorded grammars
lead from the given one to the result, each by the change that it shows. -/

variable {given grammar before : Grammar} {head : String}

namespace Progress

def shown (progress : Progress) : List Grammar := progress.steps.map Step.snapshot

theorem shown_reach {progress : Progress} {description : String} :
    (progress.reach grammar description).shown = progress.shown ++ [grammar] := by
  rw [shown, reach, List.map_append]
  rfl

theorem shown_eq_nil_iff {progress : Progress} : progress.shown = [] ↔ progress.steps = [] :=
  List.map_eq_nil_iff

/-- A visit is about its head, and is recorded unless nothing changes. -/
inductive Visits (before : Progress) (head : String) : Progress → Prop
  | unchanged : Visits before head before
  | reworked {introduced : List String} {grammar : Grammar} {description : String}
      (reworks : Reworks before.grammar head introduced grammar) :
      Visits before head (before.reach grammar description)

end Progress

open Progress

/-- What is known of a head that is still to be visited. -/
structure Awaits (given : Grammar) (head : String) (grammar : Grammar) : Prop where
  declared : grammar.HeadsDeclared
  inside : head ∈ grammar.productions
  alternatives : grammar.alternatives head = given.alternatives head

/-- Visits to different heads make steps about different heads. -/
theorem reworkings_visits {σ : Type} {visit : σ → String → σ} (progress : σ → Progress)
    (declared : given.HeadsDeclared) {state : σ} (begins : progress state = .start given)
    (next : ∀ state head, Awaits given head (progress state).grammar →
      (progress state).Visits head (progress (visit state head))) :
    ∃ heads, Reworkings given heads (progress (given.heads.foldl visit state)).shown
      (progress (given.heads.foldl visit state)).grammar := by
  -- The steps so far are about visited heads, so the next one is about another.
  have all : ∃ heads, heads ⊆ given.heads ∧
      Reworkings given heads (progress (given.heads.foldl visit state)).shown
        (progress (given.heads.foldl visit state)).grammar := by
    refine foldl_visited (fun visited state => ∃ heads, heads ⊆ visited ∧
      Reworkings given heads (progress state).shown (progress state).grammar) nodup_heads
      (fun visited state head member fresh earlier => ?_) ⟨[], List.Subset.refl _, ?_⟩
    · rcases earlier with ⟨heads, part, earlier⟩
      have new : head ∉ heads := fun old => fresh (part old)
      have awaits : Awaits given head (progress state).grammar :=
        ⟨earlier.headsDeclared declared, earlier.productions member,
          (earlier.alternatives_eq_iff (declared head member)).mpr new⟩
      have visits := next state head awaits
      generalize progress (visit state head) = reached at visits
      cases visits with
      | unchanged => exact ⟨heads, List.subset_append_of_subset_left _ part, earlier⟩
      | reworked reworks =>
          refine ⟨heads ++ [head], List.append_subset.mpr
            ⟨List.subset_append_of_subset_left _ part, List.subset_append_right _ _⟩, ?_⟩
          rw [shown_reach]
          exact earlier.rework (declared head member) new reworks
    · rw [begins]
      exact .start
  rcases all with ⟨heads, _, reworkings⟩
  exact ⟨heads, reworkings⟩

/-! ## Passes that exchange alternatives -/

theorem visits_setAlternatives {progress : Progress} {alternatives : List Alternative}
    {description : String} (awaits : Awaits given head progress.grammar)
    (different : alternatives ≠ given.alternatives head) : progress.Visits head
      (progress.reach (progress.grammar.setAlternatives head alternatives) description) :=
  .reworked ((Appends.refl _).reworks awaits.inside (awaits.alternatives.symm ▸ different))

theorem reworkings_inlineUnits (declared : grammar.HeadsDeclared) (borrowsEmpty : Bool) :
    ∃ heads, Reworkings grammar heads (grammar.inlineUnits borrowsEmpty).shown
      (grammar.inlineUnits borrowsEmpty).grammar := by
  refine reworkings_visits id declared rfl fun progress head awaits => ?_
  change progress.Visits head (UnitFree.visit grammar borrowsEmpty progress head)
  rw [UnitFree.visit]
  split
  case isTrue => exact .unchanged
  case isFalse different => exact visits_setAlternatives awaits different

namespace EmptyFree

/-- What is left to do is to remove the null non-terminals. -/
def visits (grammar : Grammar) : Progress :=
  grammar.heads.foldl (visit grammar grammar.nullableNonTerminals grammar.nullNonTerminals)
    (.start grammar)

theorem reworkings_visits (declared : grammar.HeadsDeclared) :
    ∃ heads, Reworkings grammar heads (visits grammar).shown (visits grammar).grammar := by
  refine Grammar.reworkings_visits id declared rfl fun progress head awaits => ?_
  change progress.Visits head (visit _ _ _ progress head)
  rw [visit]
  split
  case isTrue => exact .unchanged
  case isFalse =>
    dsimp only
    split
    case isTrue => exact .unchanged
    case isFalse different => exact visits_setAlternatives awaits different

/-- Null non-terminals keep their alternatives until they are removed. -/
theorem not_mem_droppedNames {heads : List String} {shown : List Grammar}
    (all : Reworkings grammar heads shown (visits grammar).grammar) (member : head ∈ heads) :
    head ∉ droppedNames grammar := by
  intro dropped
  have dropped : head ∈ grammar.nullNonTerminals ∧ grammar.start ≠ some head :=
    mem_droppedNames.mp dropped
  have kept : (visits grammar).grammar.alternatives head = grammar.alternatives head := by
    rw [visits, rewritten_visits.alternatives, rewriting]
    simp [dropped]
  exact (all.alternatives_eq_iff (all.heads_subset head member)).mp kept member

theorem told (wellFormed : grammar.WellFormed) : Told grammar (droppedNames grammar)
    grammar.emptyFree.shown grammar.emptyFree.grammar := by
  rcases reworkings_visits wellFormed.heads with ⟨heads, all⟩
  change Told grammar _ (removeNull grammar grammar.nullNonTerminals (visits grammar)).shown
    (removeNull grammar grammar.nullNonTerminals (visits grammar)).grammar
  rw [removeNull]
  split
  case isTrue none =>
    rw [show droppedNames grammar = [] from List.isEmpty_iff.mp none]
    exact .reworked all
  case isFalse some =>
    rw [shown_reach]
    refine .dropped all (fun none => some (List.isEmpty_iff.mpr none)) (fun name member => ?_)
      (fun _ => not_mem_droppedNames all) (drops_foldl _ _)
    have nullable := mem_nullable_of_mem_null (mem_droppedNames.mp member).1
    rcases wellFormed.mem_nullable_iff.mp nullable with ⟨alternative, belongs, _⟩
    exact wellFormed.heads name (mem_productions_of_mem belongs)

end EmptyFree

/-! ## Passes that introduce non-terminals -/

namespace Binary

/-- Each link gets its alternative after it is declared, so both keep the same order. -/
theorem appends_chain {base link : String} {tokens : List Token}
    (new : ¬ link ∈ grammar.productions) (declared : link ∈ grammar.nonTerminals)
    (heads : grammar.HeadsDeclared) :
    Appends grammar (chain base link tokens grammar).2
      (link :: (chain base link tokens grammar).2) (chain base link tokens grammar).1 := by
  induction tokens generalizing link grammar with
  | nil => exact .setAlternatives new
  | cons first tokens induction =>
      match tokens with
      | [] => exact .setAlternatives new
      | [_] => exact .setAlternatives new
      | second :: third :: rest =>
          let next := Name.countUp base grammar.symbolNames
          have free : ¬ next ∈ grammar.nonTerminals :=
            not_mem_nonTerminals (Name.countUp_not_mem base grammar.symbolNames)
          have appends : Appends grammar [next] [link] (linked grammar link next first) :=
            (Appends.addNonTerminal free).trans (.setAlternatives new)
          have newNext : ¬ next ∈ (linked grammar link next first).productions := by
            rw [appends.mem_heads, List.mem_singleton]
            rintro (old | same)
            · exact free (heads next old)
            · exact free (same ▸ declared)
          have grows : Extends grammar [link] (linked grammar link next first) :=
            extends_linked declared
          exact appends.trans (induction newNext (appends.mem_nonTerminals.mpr (.inr
            (List.mem_singleton.mpr rfl))) (grows.heads heads))

/-- What is known once some alternatives of a head are split. -/
structure Adds (before : Grammar) (originals : List Alternative) (splitting : Splitting) :
    Prop where
  appends : Appends before splitting.introduced splitting.introduced splitting.grammar
  changed : splitting.introduced ≠ [] → splitting.alternatives ≠ originals

theorem Adds.short {originals : List Alternative} {splitting : Splitting}
    (adds : Adds before originals splitting) (original : Alternative) :
    Adds before (originals ++ [original])
      { splitting with alternatives := splitting.alternatives ++ [original] } :=
  ⟨adds.appends, fun some same => adds.changed some (List.append_cancel_right same)⟩

theorem Adds.next {originals : List Alternative} {splitting : Splitting}
    (adds : Adds before originals splitting) (declared : before.HeadsDeclared)
    (original : Alternative) :
    Adds before (originals ++ [original]) (split head splitting original) := by
  match original with
  | [] => exact adds.short _
  | [_] => exact adds.short _
  | [_, _] => exact adds.short _
  | first :: second :: third :: rest =>
      let next := Name.countUp head splitting.grammar.symbolNames
      have free : ¬ next ∈ splitting.grammar.nonTerminals :=
        not_mem_nonTerminals (Name.countUp_not_mem head splitting.grammar.symbolNames)
      have heads : splitting.grammar.HeadsDeclared := Joins.headsDeclared ⟨_, adds.appends⟩ declared
      have joins := Appends.addNonTerminal free
      have new : ¬ next ∈ (splitting.grammar.addNonTerminal next).productions := fun inside =>
        free (heads next inside)
      refine ⟨adds.appends.trans (joins.trans (appends_chain new (mem_addNonTerminal.mpr (.inl rfl))
        ((Extends.addNonTerminal _ _).heads heads))), fun _ same => ?_⟩
      -- The last alternative was too long before and now has two tokens.
      have last := (List.append_inj' same rfl).2
      simp at last

theorem adds_foldl {done : List Alternative} {splitting : Splitting}
    (adds : Adds before done splitting) (declared : before.HeadsDeclared)
    (originals : List Alternative) :
    Adds before (done ++ originals) (originals.foldl (split head) splitting) := by
  induction originals generalizing done splitting with
  | nil => rwa [List.append_nil]
  | cons original rest induction =>
      have later : Adds before ((done ++ [original]) ++ rest)
          (rest.foldl (split head) (split head splitting original)) :=
        induction (adds.next declared original)
      rwa [List.append_assoc] at later

theorem reworkings (declared : grammar.HeadsDeclared) :
    ∃ heads, Reworkings grammar heads grammar.binary.shown grammar.binary.grammar := by
  refine reworkings_visits id declared rfl fun progress head awaits => ?_
  change progress.Visits head (visit grammar progress head)
  have start : Adds progress.grammar [] ⟨progress.grammar, [], []⟩ :=
    ⟨.refl _, fun some => absurd rfl some⟩
  have adds : Adds progress.grammar ([] ++ grammar.alternatives head)
      ((grammar.alternatives head).foldl (split head) ⟨progress.grammar, [], []⟩) :=
    adds_foldl start awaits.declared _
  rw [visit]
  split
  case isTrue => exact .unchanged
  case isFalse some =>
    have different := adds.changed fun none => some (List.isEmpty_iff.mpr none)
    exact .reworked (adds.appends.reworks awaits.inside (awaits.alternatives.symm ▸ different))

end Binary

namespace Lifted

theorem joins_liftTerminal {lifting : Lifting} (declared : lifting.grammar.HeadsDeclared)
    (terminal : String) : Joins lifting.grammar (liftTerminal lifting terminal).2.grammar := by
  rw [liftTerminal]
  split
  case h_1 => exact .refl _
  case h_2 =>
    have free := not_mem_nonTerminals
      (Name.freshOrSelf_not_mem (stem terminal) lifting.grammar.symbolNames)
    exact ⟨[_], (Appends.addNonTerminal free).trans
      (.setAlternatives fun inside => free (declared _ inside))⟩

theorem joins_liftTokens {lifting : Lifting} (declared : lifting.grammar.HeadsDeclared)
    (tokens : List Token) : Joins lifting.grammar (liftTokens lifting tokens).2.grammar := by
  induction tokens generalizing lifting with
  | nil => exact .refl _
  | cons token rest induction =>
      cases token with
      | terminal terminal =>
          have first := joins_liftTerminal declared terminal
          exact first.trans (induction (first.headsDeclared declared))
      | nonTerminal | empty => exact induction declared

theorem joins_liftAlternatives {lifting : Lifting} (declared : lifting.grammar.HeadsDeclared)
    (alternatives : List Alternative) :
    Joins lifting.grammar (liftAlternatives lifting alternatives).2.grammar := by
  induction alternatives generalizing lifting with
  | nil => exact .refl _
  | cons alternative rest induction =>
      have first : Joins lifting.grammar (liftAlternative lifting alternative).2.grammar := by
        rw [liftAlternative]
        split
        · exact .refl _
        · exact joins_liftTokens declared alternative
      exact first.trans (induction (first.headsDeclared declared))

theorem reworkings (declared : grammar.HeadsDeclared) :
    ∃ heads, Reworkings grammar heads grammar.lifted.shown grammar.lifted.grammar := by
  refine reworkings_visits State.progress declared rfl fun state head awaits => ?_
  rw [visit_eq]
  split
  case isTrue => exact .unchanged
  case isFalse different =>
    have before : (Lifting.mk state.progress.grammar state.standing []).grammar.HeadsDeclared :=
      awaits.declared
    rcases joins_liftAlternatives before (grammar.alternatives head) with ⟨introduced, appends⟩
    exact .reworked (appends.reworks awaits.inside (awaits.alternatives.symm ▸ different))

end Lifted

/-! ## What is recorded -/

/-- The recorded grammars lead from the given one to the last, which is the result, and there are
none exactly if the result is the given grammar. -/
structure Tells (given : Grammar) (removed : List String) (progress : Progress) : Prop where
  told : Told given removed progress.shown progress.grammar
  none_iff_eq : progress.steps = [] ↔ progress.grammar = given
  none_iff_same : progress.steps = [] ↔ progress.grammar.same given = true
  last : ∀ step, progress.steps.getLast? = some step → step.snapshot = progress.grammar

variable {removed : List String} {progress : Progress}

theorem Told.tells (told : Told given removed progress.shown progress.grammar) :
    Tells given removed progress := by
  have reached := told.reached
  have unchanged (none : progress.steps = []) : progress.grammar = given := by
    rw [shown_eq_nil_iff.mpr none] at reached
    exact reached.symm
  have silent (same : progress.grammar.same given = true) : progress.steps = [] :=
    shown_eq_nil_iff.mp (told.eq_nil same)
  refine ⟨told, ⟨unchanged, fun same => silent (same ▸ same_self _)⟩,
    ⟨fun none => (unchanged none).symm ▸ same_self _, silent⟩, fun step found => ?_⟩
  rw [shown, List.getLast?_map, found] at reached
  exact reached

section Passes

variable (wellFormed : grammar.WellFormed)

include wellFormed

theorem tells_binary : Tells grammar [] grammar.binary :=
  (Binary.reworkings wellFormed.heads).elim fun _ all => (Told.reworked all).tells

theorem tells_emptyFree : Tells grammar (EmptyFree.droppedNames grammar) grammar.emptyFree :=
  (EmptyFree.told wellFormed).tells

theorem tells_inlineUnits (borrowsEmpty : Bool) :
    Tells grammar [] (grammar.inlineUnits borrowsEmpty) :=
  (reworkings_inlineUnits wellFormed.heads borrowsEmpty).elim fun _ all => (Told.reworked all).tells

theorem tells_lifted : Tells grammar [] grammar.lifted :=
  (Lifted.reworkings wellFormed.heads).elim fun _ all => (Told.reworked all).tells

end Passes

/-! ## All passes together -/

open Chomsky

theorem Tells.last_append (tells : Tells given removed progress) {steps : List (Step Grammar)}
    (first : ∀ step, steps.getLast? = some step → step.snapshot = given) :
    ∀ step, (steps ++ progress.steps).getLast? = some step → step.snapshot = progress.grammar := by
  intro step found
  cases later : progress.steps.getLast? with
  | none =>
      have none := List.getLast?_eq_none_iff.mp later
      rw [none, List.append_nil] at found
      exact (first step found).trans (tells.none_iff_eq.mp none).symm
  | some other =>
      rw [List.getLast?_append, later] at found
      exact tells.last step (later.trans found)

theorem steps_chomsky (grammar : Grammar) : grammar.chomsky.steps = grammar.binary.steps ++
    (split grammar).emptyFree.steps ++ ((solid grammar).inlineUnits false).steps ++
      (inlined grammar).lifted.steps := by
  simp only [chomsky, Progress.continue, inlined, solid, split]

/-- Each pass tells what it does step by step, and only the removal of null non-terminals has a
last step for all that is removed. Normalising tells this of one pass after the other, so nothing
is recorded exactly if no pass changes the grammar that it is given. -/
theorem passes_tell (grammar : Grammar) (wellFormed : grammar.WellFormed) :
    Tells grammar [] grammar.binary ∧
      (∃ removed, (∀ name, name ∈ removed ↔
          name ∈ grammar.nullNonTerminals ∧ grammar.start ≠ some name) ∧
        Tells grammar removed grammar.emptyFree) ∧
      Tells grammar [] grammar.unitFree ∧
      Tells grammar [] grammar.lifted ∧
      (∃ removed, (∀ name, name ∈ removed ↔
          name ∈ (split grammar).nullNonTerminals ∧ (split grammar).start ≠ some name) ∧
        Tells (split grammar) removed (split grammar).emptyFree) ∧
      Tells (solid grammar) [] ((solid grammar).inlineUnits false) ∧
      Tells (inlined grammar) [] (inlined grammar).lifted ∧
      grammar.chomsky.steps = grammar.binary.steps ++ (split grammar).emptyFree.steps ++
        ((solid grammar).inlineUnits false).steps ++ (inlined grammar).lifted.steps ∧
      (grammar.chomsky.steps = [] ↔ split grammar = grammar ∧ solid grammar = split grammar ∧
        inlined grammar = solid grammar ∧ grammar.chomsky.grammar = inlined grammar) ∧
      ∀ step, grammar.chomsky.steps.getLast? = some step →
        step.snapshot = grammar.chomsky.grammar := by
  have afterSplit := wellFormed_split wellFormed
  have afterSolid := wellFormed_solid wellFormed
  have afterInlined := wellFormed_inlined wellFormed
  have first := tells_binary wellFormed
  have second := tells_emptyFree afterSplit
  have third := tells_inlineUnits afterSolid false
  have fourth := tells_lifted afterInlined
  refine ⟨first, ⟨_, fun name => EmptyFree.mem_droppedNames, tells_emptyFree wellFormed⟩,
    tells_inlineUnits wellFormed true, tells_lifted wellFormed,
    ⟨_, fun name => EmptyFree.mem_droppedNames, second⟩, third, fourth, steps_chomsky grammar, ?_,
    ?_⟩
  · rw [steps_chomsky, List.append_eq_nil_iff, List.append_eq_nil_iff, List.append_eq_nil_iff,
      first.none_iff_eq, second.none_iff_eq, third.none_iff_eq, fourth.none_iff_eq, and_assoc,
      and_assoc, grammar_chomsky]
    rfl
  · rw [steps_chomsky, grammar_chomsky]
    exact fourth.last_append (third.last_append (second.last_append first.last))

theorem passes_tell_tangled :
    tangled.WellFormed ∧ tangled.binary.steps.length = 2 ∧ tangled.emptyFree.steps.length = 3 ∧
      tangled.chomsky.steps.length = 11 ∧
      Tells tangled [] tangled.binary ∧
      (∃ removed, (∀ name, name ∈ removed ↔
          name ∈ tangled.nullNonTerminals ∧ tangled.start ≠ some name) ∧
        Tells tangled removed tangled.emptyFree) ∧
      Tells tangled [] tangled.unitFree ∧ Tells tangled [] tangled.lifted ∧
      ∀ step, tangled.chomsky.steps.getLast? = some step →
        step.snapshot = tangled.chomsky.grammar := by
  have wellFormed : tangled.WellFormed := fault?_eq_none_iff.mp (by decide)
  rcases passes_tell tangled wellFormed with
    ⟨binary, emptyFree, unitFree, lifted, -, -, -, -, -, last⟩
  exact ⟨wellFormed, by decide +kernel, by decide +kernel, by decide +kernel, binary, emptyFree,
    unitFree, lifted, last⟩

/-- Removing `ε` lets `S` stand for one `S`, and inlining takes that back. -/
def doubling : Grammar where
  nonTerminals := DeclaredSet.ofList ["S"]
  terminals := DeclaredSet.ofList ["a"]
  productions := DeclaredMap.ofList
    [("S", [[.nonTerminal "S", .nonTerminal "S"], [.terminal "a"], [.empty]])]
  start := some "S"

theorem chomsky_doubling : doubling.WellFormed ∧
    doubling.chomsky.steps.map (fun step => step.snapshot.alternatives "S") =
      [[[.nonTerminal "S", .nonTerminal "S"], [.nonTerminal "S"], [.terminal "a"], [.empty]],
        [[.nonTerminal "S", .nonTerminal "S"], [.terminal "a"], [.empty]]] ∧
    ¬ (doubling.chomsky.steps = [] ↔ doubling.chomsky.grammar = doubling) :=
  ⟨fault?_eq_none_iff.mp (by decide), by decide +kernel, by decide +kernel⟩

end FormalLanguages.Grammar
