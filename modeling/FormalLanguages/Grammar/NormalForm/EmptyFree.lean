import FormalLanguages.Grammar.Analysis
import FormalLanguages.Grammar.NormalForm.Progress

namespace FormalLanguages.Grammar

/-! Removing the empty token. Tokens that derive nothing but the empty sequence are
dropped, and each alternative is expanded to all combinations of its nullable
non-terminals being there or not. A nullable start symbol keeps the alternative `ε`,
so the language stays the same. -/

namespace EmptyFree

def isNull (null : SortedSet String) : Token → Bool
  | .nonTerminal name => name ∈ null
  | .terminal _ => false
  | .empty => true

def isOptional (nullable : SortedSet String) : Token → Bool
  | .nonTerminal name => name ∈ nullable
  | _ => false

/-- The variant that keeps everything comes first. -/
def variants (nullable : SortedSet String) : List Token → List Alternative
  | [] => [[]]
  | token :: rest =>
      let others := variants nullable rest
      let kept := others.map (token :: ·)
      if isOptional nullable token then kept ++ others else kept

def expandInto (nullable : SortedSet String) (known : List Alternative) (kept : List Token) :
    List Alternative :=
  ((variants nullable kept).filter fun variant => !variant.isEmpty).foldl addDistinct known

def keptTokens (null : SortedSet String) (alternative : Alternative) : List Token :=
  alternative.filter fun token => !isNull null token

def expanded (nullable null : SortedSet String) (alternatives : List Alternative) :
    List Alternative :=
  alternatives.foldl (fun known alternative =>
    expandInto nullable known (keptTokens null alternative)) []

def expandedNames (nullable null : SortedSet String) (alternatives : List Alternative) :
    SortedSet String :=
  SortedSet.ofList (alternatives.flatMap fun alternative =>
    ((keptTokens null alternative).filter (isOptional nullable)).map Token.text)

def description (head : String) (names : SortedSet String) : String :=
  if names.isEmpty then
    "Removed ε from the alternatives of " ++ head
  else
    "Expanded the nullable " ++ Text.naturalList names.toList ++ " in the alternatives of " ++ head

def emptyAlternative : Alternative := [.empty]

def alternativesOf (given : Grammar) (nullable null : SortedSet String) (head : String) :
    List Alternative :=
  let alternatives := expanded nullable null (given.alternatives head)
  if given.start = some head && head ∈ nullable then
    addDistinct alternatives emptyAlternative
  else
    alternatives

def visit (given : Grammar) (nullable null : SortedSet String) (progress : Progress)
    (head : String) : Progress :=
  if head ∈ null && given.start ≠ some head then
    progress
  else
    let before := given.alternatives head
    let after := alternativesOf given nullable null head
    if after = before then
      progress
    else
      progress.reach (progress.grammar.setAlternatives head after)
        (description head (expandedNames nullable null before))

def removedDescription (removed : List String) : String :=
  let ending := if removed.length = 1 then "s" else ""
  "Removed " ++ Text.naturalList removed ++ ", which only derive" ++ ending ++ " ε"

def removeNull (given : Grammar) (null : SortedSet String) (progress : Progress) : Progress :=
  let removed := null.toList.filter fun name => given.start ≠ some name
  if removed.isEmpty then
    progress
  else
    progress.reach (removed.foldl dropNonTerminal progress.grammar) (removedDescription removed)

end EmptyFree

def emptyFree (grammar : Grammar) : Progress :=
  let nullable := grammar.nullableNonTerminals
  let null := grammar.nullNonTerminals
  let visited := grammar.heads.foldl (EmptyFree.visit grammar nullable null) (.start grammar)
  EmptyFree.removeNull grammar null visited

end FormalLanguages.Grammar
