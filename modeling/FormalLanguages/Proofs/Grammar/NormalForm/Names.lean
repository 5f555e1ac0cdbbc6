import FormalLanguages.Proofs.Grammar.NormalForm.Chomsky

namespace FormalLanguages.Grammar

/-! # The names of a normal form

Splitting counts up from the head of a production, and lifting starts from the first choice
of a name for a terminal. No other names are invented, and no pass takes the production of
the start symbol away. -/

variable {grammar : Grammar}

/-- Every name is an old one or one that is `invented`, and old productions stay. -/
structure Invents (invented : String → Prop) (before after : Grammar) : Prop where
  names : ∀ name, name ∈ after.nonTerminals → name ∈ before.nonTerminals ∨ invented name
  productions : ∀ head, head ∈ before.productions → head ∈ after.productions

namespace Invents

variable {invented : String → Prop} {before between after : Grammar}

theorem refl (grammar : Grammar) : Invents invented grammar grammar :=
  ⟨fun _ => .inl, fun _ => id⟩

theorem trans (first : Invents invented before between) (second : Invents invented between after) :
    Invents invented before after where
  names name inside := (second.names name inside).elim (first.names name) .inr
  productions head inside := second.productions head (first.productions head inside)

theorem mono {wider : String → Prop} (below : ∀ name, invented name → wider name)
    (invents : Invents invented before after) : Invents wider before after where
  names name inside := (invents.names name inside).imp_right (below name)
  productions := invents.productions

theorem addNonTerminal {name : String} (new : invented name) :
    Invents invented grammar (grammar.addNonTerminal name) where
  names _ inside := (mem_addNonTerminal.mp inside).elim (fun same => .inr (same ▸ new)) .inl
  productions _ := id

theorem setAlternatives (head : String) (alternatives : List Alternative) :
    Invents invented grammar (grammar.setAlternatives head alternatives) where
  names _ := .inl
  productions _ inside := mem_setAlternatives.mpr (.inr inside)

theorem foldl {σ ι : Type} (view : σ → Grammar) {step : σ → ι → σ} {items : List ι}
    (each : ∀ state item, item ∈ items → Invents invented (view state) (view (step state item)))
    (state : σ) : Invents invented (view state) (view (items.foldl step state)) := by
  induction items generalizing state with
  | nil => exact .refl _
  | cons item rest induction =>
      have later := induction (fun state other inRest =>
        each state other (List.mem_cons_of_mem _ inRest)) (step state item)
      exact (each state item List.mem_cons_self).trans later

end Invents

/-! ## Splitting -/

namespace Binary

def CountedUp (base name : String) : Prop := ∃ taken, name = Name.countUp base taken

theorem invents_chain {base link : String} (tokens : List Token) :
    Invents (CountedUp base) grammar (chain base link tokens grammar).1 := by
  induction tokens generalizing link grammar with
  | nil => exact .setAlternatives ..
  | cons first tokens induction =>
      match tokens with
      | [] => exact .setAlternatives ..
      | [_] => exact .setAlternatives ..
      | second :: third :: rest =>
          have new : Invents (CountedUp base) grammar
              (grammar.addNonTerminal (Name.countUp base grammar.symbolNames)) :=
            .addNonTerminal ⟨_, rfl⟩
          exact (new.trans (.setAlternatives ..)).trans induction

theorem invents_split {head : String} {splitting : Splitting} (alternative : Alternative) :
    Invents (CountedUp head) splitting.grammar (split head splitting alternative).grammar := by
  match alternative with
  | [] => exact .refl _
  | [_] => exact .refl _
  | [_, _] => exact .refl _
  | first :: second :: third :: rest =>
      have new : Invents (CountedUp head) splitting.grammar
          (splitting.grammar.addNonTerminal
            (Name.countUp head splitting.grammar.symbolNames)) :=
        .addNonTerminal ⟨_, rfl⟩
      exact new.trans (invents_chain _)

theorem invents_visit {given : Grammar} {progress : Progress} {head : String} :
    Invents (CountedUp head) progress.grammar (visit given progress head).grammar := by
  have each : ∀ splitting alternative, alternative ∈ given.alternatives head →
      Invents (CountedUp head) splitting.grammar (split head splitting alternative).grammar :=
    fun _ alternative _ => invents_split alternative
  have splits := Invents.foldl Splitting.grammar each ⟨progress.grammar, [], []⟩
  rw [visit]
  split
  case isTrue => exact .refl _
  case isFalse => exact splits.trans (.setAlternatives ..)

end Binary

theorem invents_binary : Invents (fun name => ∃ head, head ∈ grammar.productions ∧
    Binary.CountedUp head name) grammar grammar.binary.grammar :=
  Invents.foldl Progress.grammar (fun _ head member =>
    Binary.invents_visit.mono fun _ counted => ⟨head, member, counted⟩) (.start grammar)

/-! ## Lifting -/

namespace Lifted

def NamedFor (terminal name : String) : Prop :=
  ∃ taken, name = Name.freshOrSelf (stem terminal) taken

def Named (name : String) : Prop := ∃ terminal, NamedFor terminal name

variable {lifting : Lifting}

theorem invents_liftTerminal (terminal : String) :
    Invents Named lifting.grammar (liftTerminal lifting terminal).2.grammar := by
  rw [liftTerminal]
  split
  case h_1 => exact .refl _
  case h_2 =>
    have new : Invents Named lifting.grammar (lifting.grammar.addNonTerminal
        (Name.freshOrSelf (stem terminal) lifting.grammar.symbolNames)) :=
      .addNonTerminal ⟨terminal, _, rfl⟩
    exact new.trans (.setAlternatives ..)

theorem invents_liftTokens (tokens : List Token) :
    Invents Named lifting.grammar (liftTokens lifting tokens).2.grammar := by
  induction tokens generalizing lifting with
  | nil => exact .refl _
  | cons token rest induction =>
      cases token with
      | terminal terminal => exact (invents_liftTerminal terminal).trans induction
      | nonTerminal | empty => exact induction

theorem invents_liftAlternative (alternative : Alternative) :
    Invents Named lifting.grammar (liftAlternative lifting alternative).2.grammar := by
  rw [liftAlternative]
  split
  case isTrue => exact .refl _
  case isFalse => exact invents_liftTokens alternative

theorem invents_liftAlternatives (lifting : Lifting) (alternatives : List Alternative) :
    Invents Named lifting.grammar (liftAlternatives lifting alternatives).2.grammar := by
  induction alternatives generalizing lifting with
  | nil => exact .refl _
  | cons alternative rest induction => exact (invents_liftAlternative alternative).trans (induction _)

theorem invents_visit {given : Grammar} {state : State} {head : String} :
    Invents Named state.progress.grammar (visit given state head).progress.grammar := by
  rw [visit_eq]
  split
  case isTrue => exact .refl _
  case isFalse =>
    have lifts : Invents Named state.progress.grammar (lifting given state head).2.grammar :=
      invents_liftAlternatives ⟨state.progress.grammar, state.standing, []⟩ _
    exact lifts.trans (.setAlternatives ..)

end Lifted

theorem invents_lifted : Invents Lifted.Named grammar grammar.lifted.grammar := by
  have each : ∀ (state : Lifted.State) (head : String), head ∈ grammar.heads →
      Invents Lifted.Named state.progress.grammar
        (Lifted.visit grammar state head).progress.grammar :=
    fun _ _ _ => Lifted.invents_visit
  exact Invents.foldl (fun state : Lifted.State => state.progress.grammar) each
    (⟨.start grammar, Lifted.initialStanding grammar⟩ : Lifted.State)

/-! ## All passes -/

section Result

variable (wellFormed : grammar.WellFormed)

include wellFormed

/-- What holds of the old names and is kept by inventing holds of all names. -/
theorem WellFormed.names_chomsky {holds : String → Prop}
    (old : ∀ name, name ∈ grammar.nonTerminals → holds name)
    (counted : ∀ name taken, holds name → holds (Name.countUp name taken))
    (named : ∀ terminal taken, holds (Name.freshOrSelf (Lifted.stem terminal) taken))
    {name : String} (declared : name ∈ grammar.chomsky.grammar.nonTerminals) : holds name := by
  rw [Chomsky.grammar_chomsky] at declared
  rcases invents_lifted.names name declared with kept | ⟨terminal, taken, rfl⟩
  · rw [Chomsky.inlined, UnitFree.rewritten_inlineUnits.nonTerminals, Chomsky.solid,
      EmptyFree.mem_nonTerminals_result] at kept
    rcases invents_binary.names name kept.1 with given | ⟨head, heads, taken, rfl⟩
    · exact old name given
    · exact counted head taken (old head (wellFormed.heads head heads))
  · exact named terminal taken

theorem WellFormed.start_mem_productions_chomsky {start : String}
    (isStart : grammar.start = some start) (given : start ∈ grammar.productions) :
    start ∈ grammar.chomsky.grammar.productions := by
  rw [Chomsky.grammar_chomsky]
  refine invents_lifted.productions start ?_
  rw [Chomsky.inlined, UnitFree.rewritten_inlineUnits.productions, Chomsky.solid,
    EmptyFree.mem_productions_result]
  refine ⟨invents_binary.productions start given, fun dropped => dropped.2 ?_⟩
  exact wellFormed.visited_binary.grows.start.trans isStart

end Result

end FormalLanguages.Grammar
