import FormalLanguages.Grammar.LineFormat
import FormalLanguages.Grammar.NormalForm.Chomsky

namespace FormalLanguages.Grammar

/-! How grammars come about. A first one is put together from its parts or read from a text.
From there each change leads to another grammar, unless it is refused, and so does each pass of
normalisation, which never is. -/

inductive Origin : Grammar → Prop
  | assembled {nonTerminals terminals : List String}
      {productions : List (String × List Alternative)} {start : Option String} {grammar : Grammar}
      (accepted : new nonTerminals terminals productions start = .ok grammar) : Origin grammar
  | written {text : String} {grammar : Grammar} (read : parse text = .ok grammar) : Origin grammar

inductive Pass where
  | binary
  | emptyFree
  | unitFree
  | lifted
  | chomsky
deriving DecidableEq, Repr

def Pass.run : Pass → Grammar → Progress
  | binary => Grammar.binary
  | emptyFree => Grammar.emptyFree
  | unitFree => Grammar.unitFree
  | lifted => Grammar.lifted
  | chomsky => Grammar.chomsky

inductive Change where
  | addNonTerminal (name : String)
  | removeNonTerminal (name : String)
  | addTerminal (name : String)
  | removeTerminal (name : String)
  | addProduction (head : String) (alternative : Alternative)
  | clearProduction (head : String)
  | setStart (start : Option String)
  | normalise (pass : Pass)
deriving DecidableEq, Repr

def change (grammar : Grammar) : Change → Except Fault Grammar
  | .addNonTerminal name => .ok (grammar.addNonTerminal name)
  | .removeNonTerminal name => grammar.removeNonTerminal name
  | .addTerminal name => .ok (grammar.addTerminal name)
  | .removeTerminal name => grammar.removeTerminal name
  | .addProduction head alternative => grammar.addProduction head alternative
  | .clearProduction head => .ok (grammar.clearProduction head)
  | .setStart start => grammar.setStart start
  | .normalise pass => .ok (pass.run grammar).grammar

/-- A history ends with the first change that is refused. -/
def history (grammar : Grammar) (changes : List Change) : Except Fault Grammar :=
  changes.foldlM change grammar

end FormalLanguages.Grammar
