import FormalLanguages.Grammar.Basic
import FormalLanguages.Name.Fresh
import FormalLanguages.Observation
import FormalLanguages.Text.Pieces

namespace FormalLanguages.Grammar

/-! Normalisation works on one production after the other, with a snapshot for every
production that it changes. -/

structure Progress where
  grammar : Grammar
  steps : List (Step Grammar)

namespace Progress

def start (grammar : Grammar) : Progress := ⟨grammar, []⟩

def reach (progress : Progress) (grammar : Grammar) (description : String) : Progress :=
  ⟨grammar, progress.steps ++ [Step.described grammar description]⟩

end Progress

def heads (grammar : Grammar) : List String := grammar.productions.keys

/-- New non-terminals are named differently from every symbol that is declared. -/
def symbolNames (grammar : Grammar) : List String :=
  grammar.nonTerminals.toList ++ grammar.terminals.toList

/-! An alternative is added once. -/

def addDistinct (known : List Alternative) (alternative : Alternative) : List Alternative :=
  if alternative ∈ known then known else known ++ [alternative]

end FormalLanguages.Grammar
