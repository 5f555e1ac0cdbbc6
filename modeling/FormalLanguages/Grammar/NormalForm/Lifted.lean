import FormalLanguages.Grammar.NormalForm.Progress

namespace FormalLanguages.Grammar

/-! In alternatives of two or more tokens, every terminal is replaced by a
non-terminal that derives just that terminal. -/

namespace Lifted

/-- The first choice of a name is the capital of a small letter, and else `T`. -/
def stem (terminal : String) : String :=
  match terminal.toList with
  | [letter] => if letter.isLower then letter.toUpper.toString else "T"
  | _ => "T"

/-- The non-terminals that stand for terminals. One whose only alternative is a
terminal is used for it, unless it is the start symbol. -/
abbrev Standing := DeclaredMap String String

def standingOf? (grammar : Grammar) (production : String × List Alternative) :
    Option (String × String) :=
  match production.2 with
  | [[.terminal terminal]] =>
      if grammar.start = some production.1 then none else some (terminal, production.1)
  | _ => none

def initialStanding (grammar : Grammar) : Standing :=
  DeclaredMap.ofList (grammar.productions.entries.filterMap (standingOf? grammar))

structure Lifting where
  grammar : Grammar
  standing : Standing
  introduced : List String

def liftTerminal (lifting : Lifting) (terminal : String) : String × Lifting :=
  match lifting.standing.get? terminal with
  | some name => (name, lifting)
  | none =>
      let name := Name.freshOrSelf (stem terminal) lifting.grammar.symbolNames
      (name,
        { grammar := (lifting.grammar.addNonTerminal name).setAlternatives name
            [[.terminal terminal]]
          standing := lifting.standing.insert terminal name
          introduced := lifting.introduced ++ [name] })

def liftTokens (lifting : Lifting) : List Token → List Token × Lifting
  | [] => ([], lifting)
  | .terminal terminal :: rest =>
      let (name, lifting) := liftTerminal lifting terminal
      let (tokens, lifting) := liftTokens lifting rest
      (.nonTerminal name :: tokens, lifting)
  | token :: rest =>
      let (tokens, lifting) := liftTokens lifting rest
      (token :: tokens, lifting)

def liftAlternative (lifting : Lifting) (alternative : Alternative) : Alternative × Lifting :=
  if alternative.length < 2 then (alternative, lifting) else liftTokens lifting alternative

def liftAlternatives (lifting : Lifting) : List Alternative → List Alternative × Lifting
  | [] => ([], lifting)
  | alternative :: rest =>
      let (first, lifting) := liftAlternative lifting alternative
      let (others, lifting) := liftAlternatives lifting rest
      (first :: others, lifting)

def description (head : String) (introduced : List String) : String :=
  let replaced := "Replaced the terminals in the alternatives of " ++ head
  if introduced.isEmpty then replaced
  else replaced ++ ", introducing " ++ Text.naturalList introduced

structure State where
  progress : Progress
  standing : Standing

def visit (given : Grammar) (state : State) (head : String) : State :=
  let before := given.alternatives head
  let (after, lifting) := liftAlternatives ⟨state.progress.grammar, state.standing, []⟩ before
  if after = before then
    state
  else
    { progress := state.progress.reach (lifting.grammar.setAlternatives head after)
        (description head lifting.introduced)
      standing := lifting.standing }

end Lifted

def lifted (grammar : Grammar) : Progress :=
  (grammar.heads.foldl (Lifted.visit grammar)
    ⟨.start grammar, Lifted.initialStanding grammar⟩).progress

end FormalLanguages.Grammar
