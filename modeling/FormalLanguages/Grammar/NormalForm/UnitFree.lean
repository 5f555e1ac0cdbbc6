import FormalLanguages.Grammar.NormalForm.EmptyFree
import FormalLanguages.Reachability

namespace FormalLanguages.Grammar

/-! An alternative that is a single non-terminal is replaced by the alternatives of
that non-terminal. Chains of such alternatives are followed to their ends, and a
chain that comes back to where it has been adds nothing. -/

namespace UnitFree

def unitTarget? : Alternative → Option String
  | [.nonTerminal name] => some name
  | _ => none

def alternativeCount (grammar : Grammar) : Nat :=
  grammar.productions.entries.foldl (fun count production => count + production.2.length) 0

def reached (grammar : Grammar) (head : String) : List String :=
  Reachable.list (1 + alternativeCount grammar)
    (fun name => (grammar.alternatives name).filterMap unitTarget?) [head]

def inlined (grammar : Grammar) (head : String) : List String :=
  let reached := reached grammar head
  grammar.heads.filter fun name => name ≠ head && name ∈ reached

/-- Once only the start symbol has the alternative `ε`, copying that alternative
would be wrong: `borrowsEmpty` says whether it is copied. -/
def isBorrowed (borrowsEmpty : Bool) (head source : String) (alternative : Alternative) : Bool :=
  (unitTarget? alternative).isNone &&
    (borrowsEmpty || source = head || alternative ≠ EmptyFree.emptyAlternative)

def alternativesOf (grammar : Grammar) (borrowsEmpty : Bool) (head : String) : List Alternative :=
  (head :: inlined grammar head).foldl (fun known source =>
    ((grammar.alternatives source).filter (isBorrowed borrowsEmpty head source)).foldl addDistinct
      known) []

def description (head : String) (inlined : List String) : String :=
  if inlined.isEmpty then
    "Removed " ++ head ++ " → " ++ head
  else
    "Inlined " ++ Text.naturalList inlined ++ " into " ++ head

def visit (given : Grammar) (borrowsEmpty : Bool) (progress : Progress) (head : String) :
    Progress :=
  let after := alternativesOf given borrowsEmpty head
  if after = given.alternatives head then
    progress
  else
    progress.reach (progress.grammar.setAlternatives head after)
      (description head (inlined given head))

end UnitFree

def inlineUnits (grammar : Grammar) (borrowsEmpty : Bool) : Progress :=
  grammar.heads.foldl (UnitFree.visit grammar borrowsEmpty) (.start grammar)

def unitFree (grammar : Grammar) : Progress := grammar.inlineUnits true

end FormalLanguages.Grammar
