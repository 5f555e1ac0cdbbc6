import FormalLanguages.Grammar.Basic

namespace FormalLanguages.Grammar

/-! The language of a grammar. A list of tokens yields the sequences of terminals
that arise when every non-terminal is replaced by one of its alternatives. -/

inductive Yields (grammar : Grammar) : List Token → List String → Prop
  | done : Yields grammar [] []
  | empty {rest : List Token} {word : List String} (tail : Yields grammar rest word) :
      Yields grammar (.empty :: rest) word
  | terminal {rest : List Token} {word : List String} (name : String)
      (tail : Yields grammar rest word) :
      Yields grammar (.terminal name :: rest) (name :: word)
  | nonTerminal {rest : List Token} {word first : List String} {name : String}
      {alternative : Alternative} (member : alternative ∈ grammar.alternatives name)
      (head : Yields grammar alternative first) (tail : Yields grammar rest word) :
      Yields grammar (.nonTerminal name :: rest) (first ++ word)

def Derives (grammar : Grammar) (nonTerminal : String) (word : List String) : Prop :=
  ∃ alternative, alternative ∈ grammar.alternatives nonTerminal ∧ grammar.Yields alternative word

def Accepts (grammar : Grammar) (word : List String) : Prop :=
  ∃ start, grammar.start = some start ∧ grammar.Derives start word

variable {grammar : Grammar}

@[simp] theorem yields_nil_iff {word : List String} : grammar.Yields [] word ↔ word = [] := by
  constructor
  · intro yields
    cases yields
    rfl
  · rintro rfl
    exact .done

theorem yields_singleton_iff {nonTerminal : String} {word : List String} :
    grammar.Yields [.nonTerminal nonTerminal] word ↔ grammar.Derives nonTerminal word := by
  constructor
  · intro yields
    cases yields with
    | nonTerminal member head tail =>
        cases tail
        exact ⟨_, member, (List.append_nil _).symm ▸ head⟩
  · rintro ⟨alternative, member, yields⟩
    exact List.append_nil word ▸ .nonTerminal member yields .done

namespace Yields

theorem append {first second : List Token} {left right : List String}
    (before : grammar.Yields first left) (after : grammar.Yields second right) :
    grammar.Yields (first ++ second) (left ++ right) := by
  induction before with
  | done => exact after
  | empty _ induction => exact .empty induction
  | terminal name _ induction => exact .terminal name induction
  | nonTerminal member head _ _ induction =>
      rw [List.append_assoc]
      exact .nonTerminal member head induction

theorem split {first second : List Token} {word : List String}
    (yields : grammar.Yields (first ++ second) word) :
    ∃ left right, word = left ++ right ∧ grammar.Yields first left ∧
      grammar.Yields second right := by
  induction first generalizing word with
  | nil => exact ⟨[], word, rfl, .done, yields⟩
  | cons token rest induction =>
      cases yields with
      | empty tail =>
          rcases induction tail with ⟨left, right, equal, before, after⟩
          exact ⟨left, right, equal, .empty before, after⟩
      | terminal name tail =>
          rcases induction tail with ⟨left, right, rfl, before, after⟩
          exact ⟨name :: left, right, rfl, .terminal name before, after⟩
      | nonTerminal member head tail =>
          rcases induction tail with ⟨left, right, rfl, before, after⟩
          exact ⟨_ ++ left, right, (List.append_assoc ..).symm,
            .nonTerminal member head before, after⟩

end Yields

theorem yields_terminals (word : List String) :
    grammar.Yields (word.map Token.terminal) word := by
  induction word with
  | nil => exact .done
  | cons name _ induction => exact .terminal name induction

end FormalLanguages.Grammar
