import FormalLanguages.Proofs.Regex.CommonFactors
import Mathlib.Tactic.Linarith

namespace FormalLanguages.Regex

/-! # What a pass makes of an expression

A pass makes an expression smaller, or else it only nests alternatives to the left. After
the latter, one more pass that does not make it smaller changes nothing at all. -/

variable {regex now before whole result : Regex} {regexes : List Regex}

/-- The same expression with all alternatives nested to the left. -/
def regroup : Regex → Regex
  | sequence first second => sequence (regroup first) (regroup second)
  | alternative left right => altAll ((regroup left).operands ++ (regroup right).operands)
  | star body => star (regroup body)
  | other => other

theorem takes_regroup (regex : Regex) : Takes (regroup regex) regex := by
  induction regex with
  | empty => exact takes_empty
  | nil => exact takes_nil
  | symbol name => exact takes_symbol name
  | reference name => exact takes_reference name
  | sequence first second inFirst inSecond => exact takes_sequence inFirst inSecond
  | alternative left right inLeft inRight => exact takes_altAll inLeft inRight
  | star body inBody => exact takes_star inBody

theorem matched_regroup (regex : Regex) : Matched (regroup regex) regex :=
  matched_of_same (takes_regroup regex).same

/-! ## Regrouping twice -/

theorem operands_bothOperands (left right : Regex) :
    (altAll (left.operands ++ right.operands)).operands = left.operands ++ right.operands := by
  rw [operands_altAll (List.append_ne_nil_of_left_ne_nil (operands_ne_nil left) _)]
  exact flatMap_eq_self fun regex member =>
    (List.mem_append.mp member).elim operands_of_mem_operands operands_of_mem_operands

theorem regroup_eq_altAll (regex : Regex) : regroup regex = altAll (regroup regex).operands := by
  cases regex with
  | alternative left right => rw [regroup, operands_bothOperands]
  | _ => rfl

theorem regroup_altAll (some : regexes ≠ [])
    (single : ∀ regex, regex ∈ regexes → regex.operands = [regex])
    (grouped : ∀ regex, regex ∈ regexes → regroup regex = regex) :
    regroup (altAll regexes) = altAll regexes := by
  induction regexes using List.reverseRecOn with
  | nil => exact absurd rfl some
  | append_singleton earlier last induction =>
      have groupedLast := grouped last (List.mem_append_right _ List.mem_cons_self)
      have singleLast := single last (List.mem_append_right _ List.mem_cons_self)
      have singleEarlier := fun regex member => single regex (List.mem_append_left [last] member)
      cases earlier with
      | nil => exact groupedLast
      | cons first rest =>
          have someEarlier := List.cons_ne_nil first rest
          have inEarlier := induction someEarlier singleEarlier
            fun regex member => grouped regex (List.mem_append_left [last] member)
          have split : altAll (first :: rest ++ [last]) = alternative (altAll (first :: rest)) last :=
            List.foldl_append
          rw [split, regroup, inEarlier, groupedLast, operands_altAll someEarlier,
            flatMap_eq_self singleEarlier, singleLast, split]

theorem regroup_twice
    (grouped : ∀ operand, operand ∈ (regroup regex).operands → regroup operand = operand) :
    regroup (regroup regex) = regroup regex := by
  rw [regroup_eq_altAll regex]
  exact regroup_altAll (operands_ne_nil _) (fun _ => operands_of_mem_operands) grouped

theorem regroup_of_mem_operands {operand : Regex} (member : operand ∈ (regroup regex).operands) :
    regroup operand = operand := by
  induction regex generalizing operand with
  | sequence first second inFirst inSecond =>
      rw [List.mem_singleton.mp member, regroup, regroup, regroup_twice fun _ => inFirst,
        regroup_twice fun _ => inSecond]
  | alternative left right inLeft inRight =>
      rw [regroup, operands_bothOperands] at member
      exact (List.mem_append.mp member).elim inLeft inRight
  | star body inBody =>
      rw [List.mem_singleton.mp member, regroup, regroup, regroup_twice fun _ => inBody]
  | _ =>
      rw [List.mem_singleton.mp member]
      rfl

theorem regroup_regroup (regex : Regex) : regroup (regroup regex) = regroup regex :=
  regroup_twice fun _ => regroup_of_mem_operands

/-! ## One pass -/

def Advances (now before : Regex) : Prop := now = regroup before ∨ Shrinks now before

theorem Advances.atMost (advances : Advances now before) : AtMost now before :=
  advances.elim (fun equal => equal ▸ (matched_regroup before).atMost) Shrinks.atMost

/-- An identity may be used on what has been made of the children. -/
theorem Advances.use (advances : Advances whole before)
    (rule : result = whole ∨ Shrinks result whole) : Advances result before := by
  rcases rule with rfl | shrinks
  · exact advances
  · exact .inr (shrinks.trans_atMost advances.atMost)

section Children

variable {nowNext beforeNext : Regex}

theorem advances_sequence (inFirst : Advances now before)
    (inSecond : Advances nowNext beforeNext) :
    Advances (sequence now nowNext) (sequence before beforeNext) := by
  rcases inFirst with equal | shrinks
  · rcases inSecond with equalNext | shrinksNext
    · exact .inl (congrArg₂ sequence equal equalNext)
    · exact .inr (shrinks_sequence (Advances.atMost (.inl equal)) shrinksNext.atMost
        (.inr shrinksNext))
  · exact .inr (shrinks_sequence shrinks.atMost inSecond.atMost (.inl shrinks))

theorem matched_altAll (left right : Regex) :
    Matched (altAll (left.operands ++ right.operands)) (alternative left right) := by
  refine .of_operands (.refl (left.operands ++ right.operands)) ?_
  rw [operands_bothOperands]
  exact List.forall₂_same.mpr fun _ _ => ⟨rfl, rfl, rfl, rfl⟩

theorem advances_alternative (inLeft : Advances now before)
    (inRight : Advances nowNext beforeNext) :
    Advances (altAll (now.operands ++ nowNext.operands)) (alternative before beforeNext) := by
  have regrouped := (matched_altAll now nowNext).atMost
  rcases inLeft with equal | shrinks
  · rcases inRight with equalNext | shrinksNext
    · exact .inl (by rw [equal, equalNext, regroup])
    · exact .inr (regrouped.trans_shrinks (shrinks_alternative (Advances.atMost (.inl equal))
        shrinksNext.atMost (.inr shrinksNext)))
  · exact .inr (regrouped.trans_shrinks (shrinks_alternative shrinks.atMost inRight.atMost
      (.inl shrinks)))

theorem advances_star (inBody : Advances now before) : Advances (star now) (star before) :=
  inBody.imp (congrArg star) shrinks_star

end Children

theorem tidy_simplifyOnce (regex : Regex) : Tidy (simplifyOnce regex) := by
  induction regex with
  | sequence first second inFirst inSecond => exact tidy_simplifySequence inFirst inSecond
  | alternative left right inLeft inRight => exact tidy_simplifyAlternative inLeft inRight
  | star body => exact tidy_simplifyStar (simplifyOnce body)
  | _ => exact (solid_of_single rfl).tidy rfl

theorem advances_simplifyOnce (regex : Regex) : Advances (simplifyOnce regex) regex := by
  induction regex with
  | sequence first second inFirst inSecond =>
      exact (advances_sequence inFirst inSecond).use (shrinks_simplifySequence _ _)
  | alternative left right inLeft inRight =>
      refine (advances_alternative inLeft inRight).use ?_
      have rule := simplifyAlternative_eq_or_lighter (tidy_simplifyOnce left)
        (tidy_simplifyOnce right)
      rw [← (matched_altAll _ _).weight] at rule
      exact rule.imp_right .inl
  | star body inBody =>
      exact (advances_star inBody).use ((simplifyStar_eq_or_lighter _).imp_right .inl)
  | _ => exact .inl rfl

theorem same_simplifyOnce_iff :
    (simplifyOnce regex).same regex = true ↔ simplifyOnce regex = regroup regex := by
  constructor
  · exact fun same => (advances_simplifyOnce regex).resolve_right (matched_of_same same).not_shrinks
  · exact fun equal => equal ▸ (takes_regroup regex).same

theorem simplifyOnce_twice (first : simplifyOnce regex = regroup regex)
    (second : simplifyOnce (simplifyOnce regex) = regroup (simplifyOnce regex)) :
    simplifyOnce (simplifyOnce regex) = simplifyOnce regex := by
  rw [second, first, regroup_regroup]

/-! ## The number of passes -/

theorem length_factors_le (regex : Regex) : regex.factors.length ≤ regex.weight := by
  induction regex with
  | sequence first second inFirst inSecond =>
      rw [factors, List.length_append, weight]
      omega
  | _ => exact weight_pos _

theorem disorder_le (regex : Regex) : regex.disorder ≤ regex.weight ^ 2 := by
  induction regex with
  | sequence first second inFirst inSecond =>
      have count := Nat.mul_le_mul_left first.weight (length_factors_le second)
      rw [disorder, weight]
      nlinarith
  | alternative left right inLeft inRight =>
      have square := pow_add_pow_le left.weight.zero_le right.weight.zero_le two_ne_zero
      calc left.disorder + right.disorder
        _ ≤ left.weight ^ 2 + right.weight ^ 2 := Nat.add_le_add inLeft inRight
        _ ≤ (left.weight + right.weight + 1) ^ 2 :=
          square.trans (Nat.pow_le_pow_left (Nat.le_succ _) 2)
  | star body inBody => exact inBody.trans (Nat.pow_le_pow_left (Nat.le_succ _) 2)
  | _ => exact Nat.zero_le _

/-- Falls whenever an expression shrinks. -/
def potential (regex : Regex) : Nat := regex.weight ^ 3 + regex.disorder

theorem potential_lt_of_lighter (lighter : now.weight < before.weight) :
    now.potential < before.potential := by
  have bound := disorder_le now
  have cubes : (now.weight + 1) ^ 3 ≤ before.weight ^ 3 := Nat.pow_le_pow_left lighter 3
  rw [potential, potential]
  nlinarith

theorem potential_lt (shrinks : Shrinks now before) : now.potential < before.potential := by
  rcases shrinks with lighter | ⟨sameWeight, _, smaller⟩
  · exact potential_lt_of_lighter lighter
  · rw [potential, potential, sameWeight]
    exact Nat.add_lt_add_left smaller _

theorem potential_le (atMost : AtMost now before) : now.potential ≤ before.potential := by
  rcases atMost with lighter | ⟨sameWeight, _, ordered⟩
  · exact (potential_lt_of_lighter lighter).le
  · rw [potential, potential, sameWeight]
    exact Nat.add_le_add_left ordered _

theorem potential_twice_lt (changed : simplifyOnce (simplifyOnce regex) ≠ simplifyOnce regex) :
    (simplifyOnce (simplifyOnce regex)).potential < regex.potential := by
  have first := advances_simplifyOnce regex
  have second := advances_simplifyOnce (simplifyOnce regex)
  rcases first with equal | shrinks
  · rcases second with equalAgain | shrinksAgain
    · exact absurd (simplifyOnce_twice equal equalAgain) changed
    · exact (potential_lt shrinksAgain).trans_le (potential_le (Advances.atMost (.inl equal)))
  · exact (potential_le second.atMost).trans_lt (potential_lt shrinks)

/-- Two passes for each step that the potential falls by are enough to reach what no pass
changes. -/
theorem simplifyOnce_iterate_fixed (regex : Regex) (passes : Nat)
    (enough : 2 * regex.potential < passes) :
    simplifyOnce (simplifyOnce^[passes] regex) = simplifyOnce^[passes] regex := by
  induction found : regex.potential using Nat.strong_induction_on generalizing regex passes with
  | h potential induction =>
      by_cases settled : simplifyOnce (simplifyOnce regex) = simplifyOnce regex
      · obtain ⟨more, rfl⟩ : ∃ more, passes = more + 1 := ⟨passes - 1, by omega⟩
        rw [Function.iterate_succ_apply, Function.iterate_fixed settled, settled]
      · have lower := potential_twice_lt settled
        obtain ⟨more, rfl⟩ : ∃ more, passes = more + 2 := ⟨passes - 2, by omega⟩
        exact induction _ (found ▸ lower) _ more (by omega) rfl

end FormalLanguages.Regex
