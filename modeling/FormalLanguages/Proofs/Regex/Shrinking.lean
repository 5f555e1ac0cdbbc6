import FormalLanguages.Proofs.Regex.Simplification
import FormalLanguages.Proofs.Regex.Striking

namespace FormalLanguages.Regex

/-! # What an identity gains

Every identity that is used at a node makes the expression lighter, or it leaves the weight
as it is and makes the disorder smaller. -/

variable {small middle large first second body next : Regex}

/-- Lighter, or as heavy and less disordered. The number of factors has to stay the same,
since the disorder of a larger sequence depends on it. -/
def Shrinks (small large : Regex) : Prop :=
  small.weight < large.weight ∨
    small.weight = large.weight ∧ small.factors.length = large.factors.length ∧
      small.disorder < large.disorder

def AtMost (small large : Regex) : Prop :=
  small.weight < large.weight ∨
    small.weight = large.weight ∧ small.factors.length = large.factors.length ∧
      small.disorder ≤ large.disorder

theorem Shrinks.atMost (shrinks : Shrinks small large) : AtMost small large :=
  shrinks.imp_right fun ⟨weight, count, disorder⟩ => ⟨weight, count, disorder.le⟩

theorem Matched.atMost (matched : Matched small large) : AtMost small large :=
  .inr ⟨matched.weight, matched.count, matched.disorder.le⟩

theorem AtMost.refl (regex : Regex) : AtMost regex regex := .inr ⟨rfl, rfl, le_rfl⟩

theorem AtMost.trans (first : AtMost small middle) (second : AtMost middle large) :
    AtMost small large := by
  rcases first with lighter | ⟨weight, count, ordered⟩ <;>
    rcases second with heavier | ⟨sameWeight, sameCount, orderedNext⟩
  · exact .inl (lighter.trans heavier)
  · exact .inl (lighter.trans_eq sameWeight)
  · exact .inl (weight.trans_lt heavier)
  · exact .inr ⟨weight.trans sameWeight, count.trans sameCount, ordered.trans orderedNext⟩

theorem Matched.not_shrinks (matched : Matched small large) : ¬ Shrinks small large := by
  rintro (lighter | ⟨_, _, smaller⟩)
  · exact lighter.ne matched.weight
  · exact smaller.ne matched.disorder

theorem Shrinks.trans_atMost (shrinks : Shrinks small middle) (atMost : AtMost middle large) :
    Shrinks small large := by
  rcases shrinks with lighter | ⟨weight, count, disorder⟩ <;>
    rcases atMost with heavier | ⟨sameWeight, sameCount, ordered⟩
  · exact .inl (lighter.trans heavier)
  · exact .inl (lighter.trans_eq sameWeight)
  · exact .inl (weight.trans_lt heavier)
  · exact .inr ⟨weight.trans sameWeight, count.trans sameCount, disorder.trans_le ordered⟩

theorem AtMost.trans_shrinks (atMost : AtMost small middle) (shrinks : Shrinks middle large) :
    Shrinks small large := by
  rcases atMost with lighter | ⟨weight, count, ordered⟩ <;>
    rcases shrinks with heavier | ⟨sameWeight, sameCount, disorder⟩
  · exact .inl (lighter.trans heavier)
  · exact .inl (lighter.trans_eq sameWeight)
  · exact .inl (weight.trans_lt heavier)
  · exact .inr ⟨weight.trans sameWeight, count.trans sameCount, ordered.trans_lt disorder⟩

/-! ## Within larger expressions -/

section Within

variable {now before nowNext beforeNext : Regex}

theorem shrinks_sequence (inFirst : AtMost now before) (inSecond : AtMost nowNext beforeNext)
    (either : Shrinks now before ∨ Shrinks nowNext beforeNext) :
    Shrinks (sequence now nowNext) (sequence before beforeNext) := by
  simp only [Shrinks, weight, disorder, factors, List.length_append] at *
  rcases inFirst with lighter | ⟨sameWeight, sameCount, _⟩ <;>
    rcases inSecond with lighterNext | ⟨sameWeightNext, sameCountNext, _⟩
  · exact .inl (by omega)
  · exact .inl (by omega)
  · exact .inl (by omega)
  · rw [sameWeight, sameCount, sameWeightNext, sameCountNext]
    exact .inr ⟨rfl, rfl, by omega⟩

theorem shrinks_alternative (inLeft : AtMost now before) (inRight : AtMost nowNext beforeNext)
    (either : Shrinks now before ∨ Shrinks nowNext beforeNext) :
    Shrinks (alternative now nowNext) (alternative before beforeNext) := by
  simp only [Shrinks, weight, disorder, factors] at *
  rcases inLeft with lighter | ⟨sameWeight, _, _⟩ <;>
    rcases inRight with lighterNext | ⟨sameWeightNext, _, _⟩
  · exact .inl (by omega)
  · exact .inl (by omega)
  · exact .inl (by omega)
  · exact .inr ⟨by omega, rfl, by omega⟩

theorem shrinks_star (shrinks : Shrinks now before) : Shrinks (star now) (star before) := by
  rcases shrinks with lighter | ⟨sameWeight, _, smaller⟩
  · exact .inl (Nat.succ_lt_succ lighter)
  · exact .inr ⟨congrArg (· + 1) sameWeight, rfl, smaller⟩

end Within

/-! ## Sequences -/

theorem eq_continued_of_splitHead {regex head : Regex} {tail : Option Regex}
    (parts : splitHead regex = (head, tail)) : regex = continued head tail := by
  cases regex <;> cases parts <;> rfl

/-- What becomes of the star of `body` in front of `head`, which `tail` follows. -/
inductive Moved (body head : Regex) (tail : Option Regex) : Regex → Prop
  | stays : Moved body head tail (sequence (star body) (continued head tail))
  | behind (same : body.same head = true) :
      Moved body head tail (sequence head (continued (star body) tail))
  | merged {first inner : Regex} {rest : List Regex} (listed : body.factors = first :: rest)
      (same : first.same head = true) (starred : head = star inner) :
      Moved body head tail (continued (star (alternative inner (catAll rest))) tail)
  | rotated {first : Regex} {rest : List Regex} (listed : body.factors = first :: rest)
      (same : first.same head = true) :
      Moved body head tail (sequence head (continued (star (catAll (rest ++ [head]))) tail))

theorem moved_starThen (body next : Regex) :
    ∃ head tail, next = continued head tail ∧ Moved body head tail (starThen body next) := by
  rw [starThen]
  rcases parts : splitHead next with ⟨head, tail⟩
  refine ⟨head, tail, eq_continued_of_splitHead parts, ?_⟩
  rw [eq_continued_of_splitHead parts]
  dsimp only
  split
  case isTrue same => exact .behind same
  case isFalse =>
    split
    case h_2 => exact .stays
    case h_1 =>
      split
      case h_1 => exact .stays
      case h_2 listed =>
        split
        case isFalse => exact .stays
        case isTrue same =>
          split
          case h_1 => exact .merged listed same rfl
          case h_2 => exact .rotated listed same

/-- A star that moves behind what follows it leaves less behind itself. -/
theorem shrinks_exchange {head moved : Regex} (tail : Option Regex)
    (sameWeight : moved.weight = body.weight)
    (smaller : moved.disorder + head.weight < body.disorder + body.weight + 1) :
    Shrinks (sequence head (continued (star moved) tail))
      (sequence (star body) (continued head tail)) := by
  have longer : body.weight + 1 ≤ (body.weight + 1) * head.factors.length :=
    Nat.le_mul_of_pos_right _ (length_factors_pos head)
  cases tail with
  | none =>
      simp only [Shrinks, continued, weight, disorder, factors, List.length_append,
        List.length_singleton]
      exact .inr ⟨by omega, by omega, by omega⟩
  | some tail =>
      simp only [Shrinks, continued, weight, disorder, factors, List.length_append,
        List.length_singleton, Nat.mul_add, sameWeight]
      exact .inr ⟨by omega, by omega, by omega⟩

theorem shrinks_merged {inner : Regex} {rest : List Regex} (tail : Option Regex)
    (whole : inner.weight + 1 + totalWeight rest = body.weight) :
    Shrinks (continued (star (alternative inner (catAll rest))) tail)
      (sequence (star body) (continued (star inner) tail)) := by
  have bound := weight_catAll_le rest
  cases tail <;> exact .inl (by simp only [continued, weight]; omega)

theorem factors_eq_self {regex : Regex} (single : regex.factors.length = 1) :
    regex.factors = [regex] := by
  cases regex with
  | sequence first second =>
      have someFirst := length_factors_pos first
      have someSecond := length_factors_pos second
      rw [factors, List.length_append] at single
      omega
  | _ => rfl

theorem shrinks_rotated {head first : Regex} {rest : List Regex} (tail : Option Regex)
    (listed : body.factors = first :: rest) (matched : Matched first head) :
    Shrinks (sequence head (continued (star (catAll (rest ++ [head]))) tail))
      (sequence (star body) (continued head tail)) := by
  have flat : ∀ regex, regex ∈ rest ++ [head] → regex.factors = [regex] := by
    intro regex member
    rcases List.mem_append.mp member with inRest | last
    · exact factors_of_mem_factors (listed ▸ List.mem_cons_of_mem first inRest)
    · have inBody : first ∈ body.factors := listed ▸ List.mem_cons_self
      have single := factors_of_mem_factors inBody
      rw [List.mem_singleton.mp last]
      exact factors_eq_self (matched.count ▸ congrArg List.length single)
  have before := totalWeight_factors body
  have after := weight_catAll (List.append_ne_nil_of_right_ne_nil rest (List.cons_ne_nil head []))
  have tidied := spread_factors_le body
  have counted := plainWeight_add_length rest
  rw [listed, totalWeight_cons, matched.weight] at before
  rw [totalWeight_append, totalWeight_cons, totalWeight_nil] at after
  rw [listed, spread_cons, matched.disorder] at tidied
  apply shrinks_exchange tail
  · omega
  · rw [disorder_catAll flat, spread_append, spread_cons, List.length_singleton]
    simp only [spread, List.length_nil, Nat.mul_zero, Nat.mul_one]
    omega

theorem shrinks_starThen (body next : Regex) :
    starThen body next = sequence (star body) next ∨
      Shrinks (starThen body next) (sequence (star body) next) := by
  rcases moved_starThen body next with ⟨head, tail, rfl, moved⟩
  generalize starThen body (continued head tail) = result at moved ⊢
  cases moved with
  | stays => exact .inl rfl
  | behind same =>
      have lighter : head.weight < body.weight + 1 :=
        Nat.lt_succ_of_le (matched_of_same same).weight.ge
      exact .inr (shrinks_exchange tail rfl (by omega))
  | merged listed same starred =>
      cases starred
      have whole := totalWeight_factors body
      rw [listed, totalWeight_cons, (matched_of_same same).weight, weight] at whole
      exact .inr (shrinks_merged tail (by omega))
  | rotated listed same => exact .inr (shrinks_rotated tail listed (matched_of_same same))

theorem shrinks_simplifySequence (first second : Regex) :
    simplifySequence first second = sequence first second ∨
      Shrinks (simplifySequence first second) (sequence first second) := by
  have someFirst := weight_pos first
  have someSecond := weight_pos second
  fun_cases simplifySequence first second with
  | case1 => exact .inr (.inl (by simp only [weight]; omega))
  | case2 => exact .inr (.inl (by simp only [weight]; omega))
  | case3 => exact .inr (.inl (by simp only [weight]; omega))
  | case4 => exact .inr (.inl (by simp only [weight]; omega))
  | case5 first middle =>
      have some := length_factors_pos second
      refine .inr (.inr ⟨?_, ?_, ?_⟩)
      · simp only [weight]
        omega
      · simp only [factors, List.append_assoc]
      · simp only [disorder, weight, factors, List.length_append, Nat.mul_add, Nat.add_mul]
        omega
  | case6 body => exact shrinks_starThen body second
  | case7 => exact .inl rfl

/-! ## Operands that are left out -/

theorem eq_or_lighter_of_sublist {part whole : List Regex} (sublist : part.Sublist whole) :
    part = whole ∨ totalWeight part < totalWeight whole := by
  induction sublist with
  | slnil => exact .inl rfl
  | cons regex _ induction =>
      right
      rw [totalWeight_cons]
      rcases induction with rfl | lighter <;> omega
  | cons_cons regex _ induction =>
      rw [totalWeight_cons, totalWeight_cons]
      rcases induction with rfl | lighter
      · exact .inl rfl
      · exact .inr (by omega)

theorem lighter_withoutNil {operands : List Regex} (some : nil ∈ operands) :
    totalWeight (withoutNil operands) < totalWeight operands := by
  refine (eq_or_lighter_of_sublist List.filter_sublist).resolve_left fun kept => ?_
  rw [← kept] at some
  exact (mem_withoutNil.mp some).2 rfl

/-! ## Stars -/

theorem totalWeight_starBodies {regexes : List Regex} (all : regexes.all isStar = true) :
    totalWeight (regexes.map starBody) + regexes.length = totalWeight regexes := by
  induction regexes with
  | nil => rfl
  | cons head tail induction =>
      rcases Bool.and_eq_true_iff.mp all with ⟨here, later⟩
      rcases isStar_iff.mp here with ⟨body, rfl⟩
      have inTail := induction later
      rw [List.map_cons, totalWeight_cons, totalWeight_cons, List.length_cons, starBody, weight]
      omega

/-- A star becomes lighter, or else it stays a star of what it repeats. -/
theorem simplifyStar_eq_or_lighter (inner : Regex) :
    simplifyStar inner = star inner ∨ (simplifyStar inner).weight < (star inner).weight := by
  fun_cases simplifyStar inner with
  | case1 => exact .inr (by decide)
  | case2 => exact .inr (by decide)
  | case3 body => exact .inr (Nat.lt_succ_self _)
  | case4 left right some =>
      rw [if_pos some]
      have lighter := lighter_withoutNil (any_isNil_iff.mp some)
      rw [totalWeight_operands] at lighter
      exact .inr (Nat.succ_lt_succ (weight_altAll_lt (Nat.le_of_lt_succ lighter)
        (one_lt_weight_alternative left right)))
  | case5 left right none => exact .inl (if_neg none)
  | case6 first second all =>
      rw [if_pos all]
      have lighter := totalWeight_starBodies all
      have some := length_factors_pos (sequence first second)
      rw [totalWeight_factors] at lighter
      exact .inr (Nat.succ_lt_succ (weight_altAll_lt (by omega)
        (one_lt_weight_sequence first second)))
  | case7 first second some => exact .inl (if_neg some)
  | case8 => exact .inl rfl

end FormalLanguages.Regex
