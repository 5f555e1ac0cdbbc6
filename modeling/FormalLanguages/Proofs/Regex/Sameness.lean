import FormalLanguages.Proofs.Regex.Languages
import FormalLanguages.Proofs.Regex.Striking

namespace FormalLanguages.Regex

/-! # Same expressions have the same language

The order and the nesting of alternatives make no difference to what they match. -/

variable {α : Type} {meaning : Meaning α}

theorem languages_eq_of_forall₂ {lefts rights : List Regex}
    (matched : List.Forall₂ (fun here there => language meaning here = language meaning there)
      lefts rights) : languages meaning lefts = languages meaning rights := by
  induction matched with
  | nil => rfl
  | cons here _ induction => rw [languages_cons, languages_cons, here, induction]

theorem respects_language (meaning : Meaning α) :
    Respects fun left right => language meaning left = language meaning right where
  empty := rfl
  nil := rfl
  symbol _ := rfl
  reference _ := rfl
  sequence inFirst inSecond := by rw [language_sequence, language_sequence, inFirst, inSecond]
  star inBody := by rw [language_star, language_star, inBody]
  pairs {left right} := by
    rintro ⟨order, permuted, matched⟩
    rw [← sum_operands left, ← sum_operands right, languages_eq_of_forall₂ matched]
    exact ((permuted.map _).sum_eq).symm

theorem language_eq_of_same {left right : Regex} (equal : left.same right = true) :
    language meaning left = language meaning right :=
  (respects_language meaning).of_same equal

theorem exists_same_of_hasSame (meaning : Meaning α) {regexes : List Regex} {regex : Regex}
    (has : hasSame regexes regex = true) :
    ∃ other, other ∈ regexes ∧ language meaning other = language meaning regex := by
  rcases List.any_eq_true.mp has with ⟨other, member, equal⟩
  exact ⟨other, member, language_eq_of_same equal⟩

end FormalLanguages.Regex
