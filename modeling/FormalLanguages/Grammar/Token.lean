import FormalLanguages.Collection.SortedSet

namespace FormalLanguages

/-! The symbols that stand on the right-hand sides of a grammar. The empty token
stands for the empty string wherever it occurs. -/

inductive Token where
  | nonTerminal (name : String)
  | terminal (name : String)
  | empty
deriving DecidableEq, Repr

abbrev Alternative := List Token

instance (alternative : Alternative) (alternatives : List Alternative) :
    Decidable (alternative ∈ alternatives) := inferInstance

namespace Token

def emptyText : String := "ε"

def text : Token → String
  | nonTerminal name => name
  | terminal name => name
  | empty => emptyText

/-- Tokens are ordered by kind and then by name. -/
def rank : Token → Nat
  | nonTerminal _ => 0
  | terminal _ => 1
  | empty => 2

instance : Ord Token := ⟨compareLex (compareOn rank) (compareOn text)⟩

instance : Std.TransOrd Token :=
  inferInstanceAs (Std.TransCmp (compareLex (compareOn rank) (compareOn text)))

instance : Std.LawfulEqOrd Token where
  eq_of_compare {left right} equal := by
    rcases Ordering.then_eq_eq.mp equal with ⟨ranks, texts⟩
    have sameRank : left.rank = right.rank := Std.LawfulEqOrd.eq_of_compare ranks
    have sameText : left.text = right.text := Std.LawfulEqOrd.eq_of_compare texts
    cases left <;> cases right <;> simp_all [rank, text]

end Token

end FormalLanguages
