import FormalLanguages.Grammar.Basic
import FormalLanguages.Grammar.ParseTree

namespace FormalLanguages

/-! Which trees are derivations of a grammar. The roots of the children of a branch are the
tokens of an alternative, and its leaves are what it derives. -/

def ParseTree.root : ParseTree → Token
  | .branch nonTerminal _ => .nonTerminal nonTerminal
  | .terminal name => .terminal name
  | .empty => .empty

def Forest.roots : Forest → List Token
  | .nil => []
  | .cons first rest => first.root :: rest.roots

mutual
/-- Every branch takes an alternative of its non-terminal, token by token. -/
def ParseTree.Follows (grammar : Grammar) : ParseTree → Prop
  | .branch nonTerminal children =>
      children.roots ∈ grammar.alternatives nonTerminal ∧ children.Follow grammar
  | .terminal _ => True
  | .empty => True

def Forest.Follow (grammar : Grammar) : Forest → Prop
  | .nil => True
  | .cons first rest => first.Follows grammar ∧ rest.Follow grammar
end

mutual
/-- The leaves that stand for terminals. A leaf for the empty token is none of them, whatever
it is shown as. -/
def ParseTree.terminals : ParseTree → List String
  | .branch _ children => children.terminals
  | .terminal name => [name]
  | .empty => []

def Forest.terminals : Forest → List String
  | .nil => []
  | .cons first rest => first.terminals ++ rest.terminals
end

end FormalLanguages
