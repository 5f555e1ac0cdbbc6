import FormalLanguages.Regex.Language
import Mathlib.Computability.Language
import Mathlib.Order.CompletePartialOrder

namespace FormalLanguages.Regex

/-! # Expressions as languages

The words that an expression matches are a language, and each way of putting
expressions together is an operation of Kleene algebra on their languages. This holds
whatever the names in the expressions stand for. -/

open scoped Computability

variable {α : Type} {meaning : Meaning α}

def language (meaning : Meaning α) (regex : Regex) : Language α :=
  Set.ofPred (Matches meaning regex)

theorem mem_language {regex : Regex} {word : List α} :
    word ∈ language meaning regex ↔ Matches meaning regex word := Iff.rfl

@[simp] theorem language_empty : language meaning empty = 0 :=
  Language.ext fun _ => matches_empty_iff

@[simp] theorem language_nil : language meaning nil = 1 :=
  Language.ext fun _ => matches_nil_iff

@[simp] theorem language_sequence (first second : Regex) :
    language meaning (sequence first second) =
      language meaning first * language meaning second := by
  refine Language.ext fun word => matches_sequence_iff.trans ?_
  rw [Language.mem_mul]
  constructor
  · rintro ⟨before, after, left, right, rfl⟩
    exact ⟨before, left, after, right, rfl⟩
  · rintro ⟨before, left, after, right, rfl⟩
    exact ⟨before, after, left, right, rfl⟩

@[simp] theorem language_alternative (left right : Regex) :
    language meaning (alternative left right) =
      language meaning left + language meaning right :=
  Language.ext fun _ => matches_alternative_iff

theorem Matches.pieces {regex : Regex} {word : List α} (holds : Matches meaning regex word)
    {body : Regex} (starred : regex = star body) :
    ∃ pieces : List (List α), word = pieces.flatten ∧
      ∀ piece, piece ∈ pieces → Matches meaning body piece := by
  induction holds with
  | done => exact ⟨[], rfl, fun _ member => absurd member List.not_mem_nil⟩
  | again once _ _ more =>
      rcases more starred with ⟨pieces, rfl, all⟩
      cases starred
      refine ⟨_ :: pieces, rfl, fun piece member => ?_⟩
      rcases List.mem_cons.mp member with rfl | later
      · exact once
      · exact all piece later
  | _ => cases starred

theorem matches_star_flatten {body : Regex} {pieces : List (List α)}
    (all : ∀ piece, piece ∈ pieces → Matches meaning body piece) :
    Matches meaning (star body) pieces.flatten := by
  induction pieces with
  | nil => exact .done
  | cons first rest induction =>
      have later := induction fun piece member => all piece (List.mem_cons_of_mem _ member)
      exact .again (all first List.mem_cons_self) later

@[simp] theorem language_star (body : Regex) :
    language meaning (star body) = (language meaning body)∗ := by
  refine Language.ext fun word => ?_
  rw [Language.mem_kstar]
  constructor
  · exact fun holds => Matches.pieces holds rfl
  · rintro ⟨pieces, rfl, all⟩
    exact matches_star_flatten all

/-! ## Operands -/

def languages (meaning : Meaning α) (regexes : List Regex) : List (Language α) :=
  regexes.map (language meaning)

@[simp] theorem languages_nil : languages meaning [] = [] := rfl

@[simp] theorem languages_cons (head : Regex) (tail : List Regex) :
    languages meaning (head :: tail) = language meaning head :: languages meaning tail := rfl

@[simp] theorem languages_append (left right : List Regex) :
    languages meaning (left ++ right) = languages meaning left ++ languages meaning right :=
  List.map_append

theorem language_catAll (regexes : List Regex) :
    language meaning (catAll regexes) = (languages meaning regexes).prod := by
  fun_induction catAll regexes with
  | case1 => exact language_nil
  | case2 last => simp
  | case3 first next rest induction =>
      rw [language_sequence, induction, languages_cons first, List.prod_cons]

theorem language_foldl_alternative (first : Regex) (rest : List Regex) :
    language meaning (rest.foldl alternative first) =
      language meaning first + (languages meaning rest).sum := by
  induction rest generalizing first with
  | nil => simp
  | cons next rest induction =>
      rw [List.foldl_cons, induction, language_alternative, add_assoc, languages_cons,
        List.sum_cons]

theorem language_altAll (regexes : List Regex) :
    language meaning (altAll regexes) = (languages meaning regexes).sum := by
  cases regexes with
  | nil => exact language_empty
  | cons first rest =>
      rw [languages_cons, List.sum_cons]
      exact language_foldl_alternative first rest

theorem prod_factors (regex : Regex) :
    (languages meaning regex.factors).prod = language meaning regex := by
  induction regex with
  | sequence first second inFirst inSecond =>
      rw [language_sequence, ← inFirst, ← inSecond, factors, languages_append, List.prod_append]
  | _ => simp [factors]

theorem sum_operands (regex : Regex) :
    (languages meaning regex.operands).sum = language meaning regex := by
  induction regex with
  | alternative left right inLeft inRight =>
      rw [language_alternative, ← inLeft, ← inRight, operands, languages_append, List.sum_append]
  | _ => simp [operands]

end FormalLanguages.Regex
