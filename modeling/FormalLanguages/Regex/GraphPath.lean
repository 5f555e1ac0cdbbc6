import FormalLanguages.Regex.Elimination
import FormalLanguages.Regex.Language

/-! # Paths through a graph of expressions

A graph accepts a sequence of symbols that can be cut into pieces such that a path
from its start to its accepting state has an edge for each piece. -/

namespace FormalLanguages.Regex.Graph

inductive Path (graph : Graph) : String → List String → String → Prop
  | stay (state : String) : Path graph state [] state
  | follow {source middle target : String} {regex : Regex} {piece word : List String}
      (edge : graph.edges.get? ⟨source, middle⟩ = some regex) (holds : regex.MatchesSymbols piece)
      (rest : Path graph middle word target) : Path graph source (piece ++ word) target

def Accepts (graph : Graph) (word : List String) : Prop :=
  graph.Path graph.start word graph.accept

theorem Path.append {graph : Graph} {source middle target : String} {first second : List String}
    (before : graph.Path source first middle) (after : graph.Path middle second target) :
    graph.Path source (first ++ second) target := by
  induction before with
  | stay => exact after
  | follow edge holds _ induction =>
      rw [List.append_assoc]
      exact .follow edge holds (induction after)

end FormalLanguages.Regex.Graph
