import FormalLanguages.Grammar.Basic
import FormalLanguages.Text.Pieces

namespace FormalLanguages.Grammar

/-! A grammar as a four-tuple in LaTeX, with its productions aligned below. -/

def latexSet (names : List String) : String := "\\\x7b" ++ Text.joined ", " names ++ "\\\x7d"

def latexProduction (production : String × List Alternative) : String :=
  let alternatives := production.2.map fun alternative =>
    Text.concatenated (alternative.map Token.text)
  production.1 ++ " &→ " ++ Text.joined " \\mid " alternatives

def latex (grammar : Grammar) : String :=
  let productions := Text.joined " \\\\\n\t" (grammar.productions.entries.map latexProduction)
  "(" ++ latexSet grammar.nonTerminals.toList ++ ", " ++ latexSet grammar.terminals.toList ++
    ", P, " ++ grammar.start.getD "" ++ ") \\\\[0.5em]\n" ++
    "\\begin\x7baligned\x7d\n\tP: " ++ productions ++ "\n\\end\x7baligned\x7d"

end FormalLanguages.Grammar
