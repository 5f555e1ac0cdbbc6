import FormalLanguages.Grammar.Token
import FormalLanguages.Text.Pieces

namespace FormalLanguages

/-! The tree of a derivation. A branch holds a subtree for each token of the
alternative that was taken. -/

mutual
inductive ParseTree where
  | branch (nonTerminal : String) (children : Forest)
  | terminal (name : String)
  | empty

inductive Forest where
  | nil
  | cons (first : ParseTree) (rest : Forest)
end

deriving instance DecidableEq for ParseTree
deriving instance DecidableEq for Forest

def Forest.ofList : List ParseTree → Forest
  | [] => nil
  | first :: rest => cons first (ofList rest)

/-- The text that is read off the leaves. A leaf that shows as `ε` adds nothing. -/
def leafYield (name : String) : String := if name = Token.emptyText then "" else name

mutual
def ParseTree.yield : ParseTree → String
  | .branch _ children => children.yield
  | .terminal name => leafYield name
  | .empty => ""

def Forest.yield : Forest → String
  | .nil => ""
  | .cons first rest => first.yield ++ rest.yield
end

/-! Trees are printed in brackets, as `S(A(a) B(b))`. -/

mutual
def ParseTree.print : ParseTree → String
  | .branch nonTerminal children => nonTerminal ++ "(" ++ Text.joined " " children.printAll ++ ")"
  | .terminal name => name
  | .empty => Token.emptyText

def Forest.printAll : Forest → List String
  | .nil => []
  | .cons first rest => first.print :: rest.printAll
end

end FormalLanguages
