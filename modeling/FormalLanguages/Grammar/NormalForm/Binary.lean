import FormalLanguages.Grammar.NormalForm.Progress

namespace FormalLanguages.Grammar

/-! Every alternative of three or more tokens is split into a chain of alternatives
of two tokens, which branches to the right. -/

namespace Binary

/-- The chain hangs below a new non-terminal `link`. -/
def chain (base link : String) : List Token → Grammar → Grammar × List String
  | first :: second :: third :: rest, grammar =>
      let next := Name.countUp base grammar.symbolNames
      let extended := (grammar.addNonTerminal next).addAlternative link [first, .nonTerminal next]
      let (chained, introduced) := chain base next (second :: third :: rest) extended
      (chained, next :: introduced)
  | short, grammar => (grammar.addAlternative link short, [])

structure Splitting where
  grammar : Grammar
  alternatives : List Alternative
  introduced : List String

def split (head : String) (splitting : Splitting) (alternative : Alternative) : Splitting :=
  match alternative with
  | first :: second :: third :: rest =>
      let next := Name.countUp head splitting.grammar.symbolNames
      let (chained, introduced) :=
        chain head next (second :: third :: rest) (splitting.grammar.addNonTerminal next)
      { grammar := chained
        alternatives := splitting.alternatives ++ [[first, .nonTerminal next]]
        introduced := splitting.introduced ++ next :: introduced }
  | short => { splitting with alternatives := splitting.alternatives ++ [short] }

def description (head : String) (introduced : List String) : String :=
  "Split the long alternatives of " ++ head ++ ", introducing " ++ Text.naturalList introduced

def visit (given : Grammar) (progress : Progress) (head : String) : Progress :=
  let splitting := (given.alternatives head).foldl (split head) ⟨progress.grammar, [], []⟩
  if splitting.introduced.isEmpty then
    progress
  else
    progress.reach (splitting.grammar.setAlternatives head splitting.alternatives)
      (description head splitting.introduced)

end Binary

def binary (grammar : Grammar) : Progress :=
  grammar.heads.foldl (Binary.visit grammar) (.start grammar)

end FormalLanguages.Grammar
