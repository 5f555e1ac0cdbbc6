import FormalLanguages.Proofs.Name.Freshness
import FormalLanguages.Proofs.Text.Characters
import Mathlib.Data.List.TakeWhile

namespace FormalLanguages.Name

/-! A name that is counted up keeps what stands before its trailing subscripts, and ends in
other subscripts. -/

theorem isSubscript_of_mem_subscriptDigits {number : Nat} {digit : Char}
    (member : digit ∈ subscriptDigits number) : isSubscript digit = true := by
  rcases List.mem_map.mp member with ⟨decimal, inside, rfl⟩
  exact Text.isSubscript_lowered
    (Nat.isDigit_of_mem_toDigits (b := 10) (by decide) (by decide) inside)

theorem leadingStem_append_trailingSubscripts (name : String) :
    leadingStem name ++ trailingSubscripts name = name.toList := by
  rw [leadingStem, trailingSubscripts, ← List.reverse_append, List.takeWhile_append_dropWhile,
    List.reverse_reverse]

theorem isSubscript_of_mem_trailingSubscripts {name : String} {digit : Char}
    (member : digit ∈ trailingSubscripts name) : isSubscript digit = true :=
  List.mem_takeWhile_imp (List.mem_reverse.mp member)

theorem exists_stem_reading (name : String) : ∃ digits, name.toList =
    (reading name).stem.toList ++ digits ∧ ∀ digit, digit ∈ digits → isSubscript digit = true := by
  rw [reading, read?]
  split
  case isTrue =>
    exact ⟨[], (List.append_nil _).symm, fun _ none => absurd none List.not_mem_nil⟩
  case isFalse =>
    refine ⟨trailingSubscripts name, ?_, fun _ => isSubscript_of_mem_trailingSubscripts⟩
    rw [Option.getD_some, String.toList_ofList, leadingStem_append_trailingSubscripts]

/-- The names have one stem, and the other one ends in subscripts. -/
structure Recounted (name other : String) (stem : List Char) : Prop where
  before : ∃ digits, name.toList = stem ++ digits ∧
    ∀ digit, digit ∈ digits → isSubscript digit = true
  after : ∃ digits, digits ≠ [] ∧ other.toList = stem ++ digits ∧
    ∀ digit, digit ∈ digits → isSubscript digit = true

theorem subscriptDigits_ne_nil (number : Nat) : subscriptDigits number ≠ [] :=
  List.map_eq_nil_iff.not.mpr Nat.toDigits_ne_nil

theorem toList_numbered (stem : String) (number : Nat) :
    (numbered stem number).toList = stem.toList ++ subscriptDigits number := by
  rw [numbered, String.toList_append, subscript, String.toList_ofList]

theorem recounted_numbered (stem : String) (number : Nat) :
    Recounted stem (numbered stem number) stem.toList where
  before := ⟨[], (List.append_nil _).symm, fun _ none => absurd none List.not_mem_nil⟩
  after := ⟨_, subscriptDigits_ne_nil number, toList_numbered stem number,
    fun _ => isSubscript_of_mem_subscriptDigits⟩

theorem exists_recounted (name : String) (taken : List String) :
    ∃ stem, Recounted name (countUp name taken) stem := by
  rcases firstFree_interval (reading name) taken taken.length 0 with ⟨count, _, counted, _⟩
  have same : countUp name taken = candidate (reading name) (0 + count) :=
    congrArg Choice.name counted
  exact ⟨_, exists_stem_reading name, same ▸ (recounted_numbered _ _).after⟩

theorem freshOrSelf_eq_or (name : String) (taken : List String) :
    freshOrSelf name taken = name ∨ freshOrSelf name taken = countUp name taken := by
  rw [freshOrSelf, chooseOwn]
  split
  case isTrue => exact .inr rfl
  case isFalse => exact .inl rfl

/-- Whether a name is counted up does not matter to the property. -/
def KeptByCounting (holds : String → Prop) : Prop :=
  ∀ {name other : String} {stem : List Char}, holds name → Recounted name other stem → holds other

theorem KeptByCounting.freshOrSelf {holds : String → Prop} (kept : KeptByCounting holds)
    {name : String} (start : holds name) (taken : List String) :
    holds (freshOrSelf name taken) := by
  rcases freshOrSelf_eq_or name taken with same | counted
  · rwa [same]
  · rcases exists_recounted name taken with ⟨_, recounted⟩
    exact counted ▸ kept start recounted

end FormalLanguages.Name
