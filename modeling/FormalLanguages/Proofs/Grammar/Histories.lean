import FormalLanguages.Grammar.History
import FormalLanguages.Proofs.Grammar.LineFormat.Reading
import FormalLanguages.Proofs.Grammar.NormalForm.Snapshots

namespace FormalLanguages.Grammar

/-! # All grammars are well-formed

Some changes are checked, and the others cannot leave a symbol without its declaration. So
whatever is done to a grammar, and in which order, what comes out mentions declared symbols
only. -/

variable {grammar origin result : Grammar}

theorem wellFormed_of_checked (accepted : checked grammar = .ok result) : result.WellFormed := by
  rcases checked_eq_ok_iff.mp accepted with ⟨wellFormed, rfl⟩
  exact wellFormed

theorem Origin.wellFormed (origin : Origin grammar) : grammar.WellFormed := by
  cases origin with
  | assembled accepted => exact wellFormed_of_checked accepted
  | written read => exact (read_of_parse read).wellFormed

/-! ## Changes -/

section Change

variable (wellFormed : grammar.WellFormed)

include wellFormed

/-- More may be declared, and less may be mentioned. -/
theorem WellFormed.weaken
    (nonTerminals : ∀ name, name ∈ grammar.nonTerminals → name ∈ result.nonTerminals)
    (terminals : ∀ name, name ∈ grammar.terminals → name ∈ result.terminals)
    (heads : ∀ head, head ∈ result.productions → head ∈ grammar.productions)
    (alternatives : ∀ head alternative, alternative ∈ result.alternatives head →
      alternative ∈ grammar.alternatives head)
    (start : result.start = grammar.start) : result.WellFormed := by
  refine .of_alternatives (fun head inside => ?_)
    (fun head alternative member token inside => ?_) fun name isStart => ?_
  · exact nonTerminals head (wellFormed.heads head (heads head inside))
  · have declared := wellFormed.token_declared (alternatives head alternative member) inside
    cases token with
    | nonTerminal name => exact nonTerminals name declared
    | terminal name => exact terminals name declared
    | empty => trivial
  · exact nonTerminals name (wellFormed.start name (start ▸ isStart))

theorem WellFormed.addNonTerminal (name : String) : (grammar.addNonTerminal name).WellFormed :=
  wellFormed.weaken (fun _ old => mem_addNonTerminal.mpr (.inr old)) (fun _ => id) (fun _ => id)
    (fun _ _ => id) rfl

theorem WellFormed.addTerminal (name : String) : (grammar.addTerminal name).WellFormed :=
  wellFormed.weaken (fun _ => id) (fun _ old => DeclaredSet.mem_insert.mpr (.inr old))
    (fun _ => id) (fun _ _ => id) rfl

theorem WellFormed.clearProduction (head : String) : (grammar.clearProduction head).WellFormed := by
  refine wellFormed.weaken (fun _ => id) (fun _ => id)
    (fun other inside => (DeclaredMap.mem_erase.mp inside).1) (fun other alternative member => ?_) rfl
  rw [alternatives, Grammar.clearProduction, DeclaredMap.get?_erase] at member
  split at member
  · cases member
  · exact member

theorem WellFormed.throughout_pass (pass : Pass) : (pass.run grammar).Throughout (Upholds grammar) := by
  cases pass with
  | binary => exact wellFormed.throughout_binary
  | emptyFree => exact wellFormed.throughout_emptyFree
  | unitFree => exact wellFormed.throughout_inlineUnits true
  | lifted => exact wellFormed.throughout_lifted
  | chomsky => exact wellFormed.throughout_chomsky

theorem WellFormed.change {change : Change} (accepted : grammar.change change = .ok result) :
    result.WellFormed := by
  cases change with
  | addNonTerminal name =>
      cases accepted
      exact wellFormed.addNonTerminal name
  | addTerminal name =>
      cases accepted
      exact wellFormed.addTerminal name
  | clearProduction head =>
      cases accepted
      exact wellFormed.clearProduction head
  | normalise pass =>
      cases accepted
      exact (wellFormed.throughout_pass pass).reached.wellFormed
  -- The grammar that these lead to is checked as a whole.
  | removeNonTerminal | removeTerminal | addProduction | setStart =>
      exact wellFormed_of_checked accepted

theorem WellFormed.history {changes : List Change} (accepted : grammar.history changes = .ok result) :
    result.WellFormed := by
  induction changes generalizing grammar with
  | nil =>
      cases accepted
      exact wellFormed
  | cons first rest induction =>
      rw [Grammar.history, List.foldlM_cons, bind_eq_ok_iff] at accepted
      rcases accepted with ⟨next, changed, later⟩
      exact induction (wellFormed.change changed) later

end Change

/-- Whatever changes are made to a grammar, by whatever way it came about, they lead to a
well-formed one. A pass keeps the start symbol and the terminals of any of them, and so does
every grammar that it shows. -/
theorem history_wellFormed (first : Origin origin) (changes : List Change)
    (accepted : origin.history changes = .ok result) :
    result.WellFormed ∧
      ∀ pass : Pass,
        (pass.run result).grammar.start = result.start ∧
        (pass.run result).grammar.terminals = result.terminals ∧
        ∀ step, step ∈ (pass.run result).steps → step.snapshot.WellFormed ∧
          step.snapshot.start = result.start ∧ step.snapshot.terminals = result.terminals := by
  have wellFormed := first.wellFormed.history accepted
  refine ⟨wellFormed, fun pass => ?_⟩
  have known := wellFormed.throughout_pass pass
  refine ⟨known.reached.start, known.reached.terminals, fun step member => ?_⟩
  have shown := known.shown step member
  exact ⟨shown.wellFormed, shown.start, shown.terminals⟩

/-- The grammar `S → aSb | N`, `N → NN | ε`. -/
def balanced : Grammar where
  nonTerminals := DeclaredSet.ofList ["S", "N"]
  terminals := DeclaredSet.ofList ["a", "b"]
  productions := DeclaredMap.ofList
    [("S", [[.terminal "a", .nonTerminal "S", .terminal "b"], [.nonTerminal "N"]]),
      ("N", [[.nonTerminal "N", .nonTerminal "N"], [.empty]])]
  start := some "S"

/-- `N` is mentioned by the alternative of `T` when it is found to derive the empty word only. -/
def reworking : List Change :=
  [.normalise .binary, .addNonTerminal "T", .addTerminal "c",
    .addProduction "T" [.nonTerminal "N", .terminal "a", .nonTerminal "S"], .setStart (some "T"),
    .normalise .emptyFree, .removeTerminal "c", .normalise .lifted, .clearProduction "S₁",
    .addProduction "T" [.nonTerminal "T"], .normalise .unitFree, .normalise .chomsky]

def reworked : Grammar where
  nonTerminals := DeclaredSet.ofList ["S", "S₁", "T", "A", "B"]
  terminals := DeclaredSet.ofList ["a", "b"]
  productions := DeclaredMap.ofList
    [("S", [[.nonTerminal "A", .nonTerminal "S₁"]]),
      ("T", [[.nonTerminal "A", .nonTerminal "S"], [.terminal "a"]]), ("A", [[.terminal "a"]]),
      ("B", [[.terminal "b"]])]
  start := some "T"

theorem wellFormed_reworked :
    parse "S→aSb|N\nN→NN|" = .ok balanced ∧ balanced.history reworking = .ok reworked ∧
      reworked.WellFormed ∧
      ∀ pass : Pass,
        (pass.run reworked).grammar.start = reworked.start ∧
        (pass.run reworked).grammar.terminals = reworked.terminals ∧
        ∀ step, step ∈ (pass.run reworked).steps → step.snapshot.WellFormed ∧
          step.snapshot.start = reworked.start ∧ step.snapshot.terminals = reworked.terminals :=
  have read : parse "S→aSb|N\nN→NN|" = .ok balanced := by decide
  have accepted : balanced.history reworking = .ok reworked := by decide +kernel
  ⟨read, accepted, history_wellFormed (.written read) reworking accepted⟩

end FormalLanguages.Grammar
