import FormalLanguages.Proofs.Regex.Shrinking

namespace FormalLanguages.Regex

/-! # Sequences without `∅` and `ε`

A pass leaves `∅` and `ε` in no sequence that is an operand of its result. -/

variable {regex first second : Regex} {regexes : List Regex}

/-- What is not itself `∅` or `ε` has neither of them as a factor. -/
def Solid (regex : Regex) : Prop :=
  1 < regex.weight → ∀ factor, factor ∈ regex.factors → 1 < factor.weight

def Tidy (regex : Regex) : Prop := ∀ operand, operand ∈ regex.operands → Solid operand

theorem solid_of_single (single : regex.factors = [regex]) : Solid regex := by
  intro heavy factor member
  rw [single, List.mem_singleton] at member
  exact member ▸ heavy

theorem Solid.tidy (solid : Solid regex) (single : regex.operands = [regex]) : Tidy regex := by
  intro operand member
  rw [single, List.mem_singleton] at member
  exact member ▸ solid

theorem Tidy.solid (tidy : Tidy regex) : Solid regex := by
  rcases operands_eq_self_or regex with single | ⟨left, right, rfl⟩
  · exact tidy regex (single ▸ List.mem_singleton_self regex)
  · exact solid_of_single rfl

theorem operands_catAll (several : 1 < regexes.length) :
    (catAll regexes).operands = [catAll regexes] := by
  match regexes, several with
  | _ :: _ :: _, _ => rfl

theorem tidy_star (body : Regex) : Tidy (star body) := (solid_of_single rfl).tidy rfl

theorem tidy_altAll (all : ∀ regex, regex ∈ regexes → Tidy regex) : Tidy (altAll regexes) := by
  rcases eq_or_ne regexes [] with rfl | some
  · exact (solid_of_single rfl).tidy rfl
  · intro operand member
    rw [operands_altAll some] at member
    rcases List.mem_flatMap.mp member with ⟨regex, inList, inRegex⟩
    exact all regex inList operand inRegex

/-! ## Sequences -/

theorem factors_continued (regex : Regex) (tail : Option Regex) :
    (continued regex tail).factors = regex.factors ++ (tail.map factors).getD [] := by
  cases tail with
  | none => exact (List.append_nil _).symm
  | some tail => rfl

/-- Whatever becomes of a star, only stars are new factors. -/
theorem mem_factors_starThen {body next factor : Regex}
    (member : factor ∈ (starThen body next).factors) :
    factor ∈ next.factors ∨ factor.isStar = true := by
  rcases moved_starThen body next with ⟨head, tail, rfl, moved⟩
  generalize starThen body (continued head tail) = result at moved member
  have isStar : ∀ inner, factor ∈ (star inner).factors → factor.isStar = true :=
    fun inner member => congrArg isStar (List.mem_singleton.mp member)
  rw [factors_continued, List.mem_append]
  have starred : ∀ inner, factor ∈ (continued (star inner) tail).factors →
      factor.isStar = true ∨ factor ∈ (tail.map factors).getD [] := by
    intro inner member
    rw [factors_continued] at member
    exact (List.mem_append.mp member).imp_left (isStar inner)
  cases moved with
  | stays =>
      rcases List.mem_append.mp member with inStar | inNext
      · exact .inr (isStar body inStar)
      · exact .inl (List.mem_append.mp (factors_continued head tail ▸ inNext))
  | merged => exact (starred _ member).elim .inr fun inTail => .inl (.inr inTail)
  | behind | rotated =>
      rcases List.mem_append.mp member with inHead | inRest
      · exact .inl (.inl inHead)
      · exact (starred _ inRest).elim .inr fun inTail => .inl (.inr inTail)

theorem operands_starThen (body next : Regex) :
    (starThen body next).operands = [starThen body next] := by
  rcases moved_starThen body next with ⟨head, tail, rfl, moved⟩
  generalize starThen body (continued head tail) = result at moved ⊢
  cases moved <;> cases tail <;> rfl

theorem tidy_of_factors (single : regex.operands = [regex])
    (heavy : ∀ factor, factor ∈ regex.factors → 1 < factor.weight) : Tidy regex :=
  Solid.tidy (fun _ => heavy) single

theorem tidy_simplifySequence (tidyFirst : Tidy first) (tidySecond : Tidy second) :
    Tidy (simplifySequence first second) := by
  fun_cases simplifySequence first second with
  | case1 => exact tidyFirst
  | case2 => exact tidySecond
  | case3 => exact tidySecond
  | case4 => exact tidyFirst
  | case5 first middle _ notEmpty notNil =>
      refine tidy_of_factors rfl fun factor member => ?_
      rw [factors, factors, ← List.append_assoc] at member
      rcases List.mem_append.mp member with inFirst | inLast
      · exact tidyFirst.solid (one_lt_weight_sequence first middle) factor inFirst
      · exact tidySecond.solid (one_lt_weight notEmpty notNil) factor inLast
  | case6 body _ notEmpty notNil =>
      refine tidy_of_factors (operands_starThen body second) fun factor member => ?_
      rcases mem_factors_starThen member with inNext | starred
      · exact tidySecond.solid (one_lt_weight notEmpty notNil) factor inNext
      · exact one_lt_weight_of_isStar starred
  | case7 _ _ firstNotEmpty secondNotEmpty firstNotNil secondNotNil =>
      refine tidy_of_factors rfl fun factor member => ?_
      rcases List.mem_append.mp member with inFirst | inSecond
      · exact tidyFirst.solid (one_lt_weight firstNotEmpty firstNotNil) factor inFirst
      · exact tidySecond.solid (one_lt_weight secondNotEmpty secondNotNil) factor inSecond

theorem tidy_simplifyStar (inner : Regex) : Tidy (simplifyStar inner) := by
  fun_cases simplifyStar inner with
  | case1 => exact (solid_of_single rfl).tidy rfl
  | case2 => exact (solid_of_single rfl).tidy rfl
  | case3 body => exact tidy_star body
  | case4 left right some => exact if_pos some ▸ tidy_star _
  | case5 left right none => exact if_neg none ▸ tidy_star _
  | case6 first second all => exact if_pos all ▸ tidy_star _
  | case7 first second some => exact if_neg some ▸ tidy_star _
  | case8 => exact tidy_star _

end FormalLanguages.Regex
