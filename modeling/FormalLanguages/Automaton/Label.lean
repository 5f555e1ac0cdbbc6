import FormalLanguages.Collection.SortedMap

namespace FormalLanguages

/-! Transitions consume one symbol of the alphabet, or nothing. -/

inductive Label where
  | epsilon
  | symbol (name : String)
deriving DecidableEq, Repr

namespace Label

def symbol? : Label → Option String
  | epsilon => none
  | symbol name => some name

/-! In texts `ε` stands for the label that consumes nothing. A symbol of that
name exists as well, and looks the same when it is printed. -/

def epsilonText : String := "ε"

def ofText (text : String) : Label := if text = epsilonText then epsilon else symbol text

def text : Label → String
  | epsilon => epsilonText
  | symbol name => name

theorem symbol?_injective {left right : Label} (equal : left.symbol? = right.symbol?) :
    left = right := by
  cases left <;> cases right <;> simp_all [symbol?]

/-! The empty label comes before all symbols. -/

instance : Ord Label := ⟨compareOn symbol?⟩

instance : Std.TransOrd Label := inferInstanceAs (Std.TransCmp (compareOn symbol?))

instance : Std.LawfulEqOrd Label where
  eq_of_compare equal := symbol?_injective (Std.LawfulEqOrd.eq_of_compare equal)

end Label

structure Edge where
  label : Label
  target : String
deriving DecidableEq, Repr

namespace Edge

instance : Ord Edge := ⟨compareLex (compareOn label) (compareOn target)⟩

instance : Std.TransOrd Edge :=
  inferInstanceAs (Std.TransCmp (compareLex (compareOn label) (compareOn target)))

instance : Std.LawfulEqOrd Edge where
  eq_of_compare {left right} equal := by
    rcases Ordering.then_eq_eq.mp equal with ⟨labels, targets⟩
    cases left
    cases right
    congr
    · exact Std.LawfulEqOrd.eq_of_compare labels
    · exact Std.LawfulEqOrd.eq_of_compare targets

end Edge

end FormalLanguages
