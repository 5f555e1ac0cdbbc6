import FormalLanguages.Grammar.NormalForm.Binary
import FormalLanguages.Grammar.NormalForm.Lifted
import FormalLanguages.Grammar.NormalForm.UnitFree

namespace FormalLanguages.Grammar

/-! Chomsky normal form: an alternative is a terminal or two non-terminals, and the
start symbol may derive the empty sequence as well. -/

def isChomskyAlternative (start : Option String) (head : String) : Alternative → Bool
  | [.terminal _] => true
  | [.nonTerminal _, .nonTerminal _] => true
  | [.empty] => start = some head
  | _ => false

def isChomsky (grammar : Grammar) : Bool :=
  grammar.productions.entries.all fun production =>
    production.2.all (isChomskyAlternative grammar.start production.1)

/-- The passes run one after the other on the result of the one before. -/
def Progress.continue (progress : Progress) (pass : Grammar → Progress) : Progress :=
  let next := pass progress.grammar
  ⟨next.grammar, progress.steps ++ next.steps⟩

def chomsky (grammar : Grammar) : Progress :=
  (((binary grammar).continue emptyFree).continue fun grammar => grammar.inlineUnits false).continue
    lifted

end FormalLanguages.Grammar
