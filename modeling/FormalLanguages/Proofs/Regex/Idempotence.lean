import FormalLanguages.Proofs.Regex.Passes

namespace FormalLanguages.Regex

/-! # Simplifying again

Simplifying stops at a pass that changes no more than the nesting of alternatives, and keeps
what was there before that pass. Whether two sequences have something in common may depend on
that nesting, though, and passes are limited. So what has been simplified need not stay the
same if it is simplified again; but it does after being simplified often enough. -/

variable {regex : Regex}

/-! ## Repeated passes -/

theorem settle_atMost (passes : Nat) (regex : Regex) : AtMost (settle passes regex) regex := by
  induction passes generalizing regex with
  | zero => exact .refl regex
  | succ passes induction =>
      rw [settle]
      split
      · exact .refl regex
      · exact (induction _).trans (advances_simplifyOnce regex).atMost

theorem settle_succ_atMost (passes : Nat) (regex : Regex) :
    AtMost (settle (passes + 1) regex) (simplifyOnce regex) := by
  rw [settle]
  split
  case isTrue same => exact (matched_of_same same).symm.atMost
  case isFalse => exact settle_atMost passes _

theorem settle_fixed (passes : Nat) (fixed : simplifyOnce regex = regex) :
    settle passes regex = regex := by
  induction passes with
  | zero => rfl
  | succ passes induction =>
      rw [settle, fixed]
      split
      · rfl
      · exact induction

theorem same_of_fixed (fixed : simplifyOnce regex = regex) : regex.same regex = true := by
  have grouped : simplifyOnce regex = regroup regex :=
    (advances_simplifyOnce regex).resolve_right
      (fixed.symm ▸ Matched.not_shrinks ⟨rfl, rfl, rfl, rfl⟩)
  have same := same_simplifyOnce_iff.mpr grouped
  rwa [fixed] at same

theorem simplify_fixed (fixed : simplifyOnce regex = regex) : regex.simplify = regex := by
  rw [simplify, fixed]
  exact settle_fixed passLimit fixed

/-- Simplifying makes an expression smaller, unless a pass changes nothing but the nesting of
alternatives and another pass nothing at all. -/
theorem simplify_cases (regex : Regex) :
    Shrinks regex.simplify regex ∨ (simplifyOnce regex).same regex = true ∧
      simplifyOnce (simplifyOnce regex) = simplifyOnce regex ∧
        regex.simplify = simplifyOnce regex := by
  rcases advances_simplifyOnce regex with equal | shrinks
  · rcases advances_simplifyOnce (simplifyOnce regex) with equalAgain | shrinksAgain
    · have fixed := simplifyOnce_twice equal equalAgain
      exact .inr ⟨same_simplifyOnce_iff.mpr equal, fixed, settle_fixed passLimit fixed⟩
    · have further := settle_succ_atMost (passLimit - 1) (simplifyOnce regex)
      exact .inl ((further.trans_shrinks shrinksAgain).trans_atMost (Advances.atMost (.inl equal)))
  · exact .inl ((settle_atMost passLimit (simplifyOnce regex)).trans_shrinks shrinks)

theorem same_simplify_iff : regex.simplify.same regex = true ↔
    (simplifyOnce regex).same regex = true ∧
      simplifyOnce (simplifyOnce regex) = simplifyOnce regex := by
  constructor
  · intro same
    have settled := (simplify_cases regex).resolve_left (matched_of_same same).not_shrinks
    exact ⟨settled.1, settled.2.1⟩
  · rintro ⟨same, fixed⟩
    rw [simplify, settle_fixed passLimit fixed]
    exact same

theorem same_iterate_simplify (regex : Regex) (times : Nat) (enough : regex.potential ≤ times) :
    (simplify (simplify^[times] regex)).same (simplify^[times] regex) = true := by
  induction found : regex.potential using Nat.strong_induction_on generalizing regex times with
  | h potential induction =>
      rcases simplify_cases regex with shrinks | ⟨same, fixed, once⟩
      · have lower := potential_lt shrinks
        obtain ⟨more, rfl⟩ : ∃ more, times = more + 1 := ⟨times - 1, by omega⟩
        exact induction _ (found ▸ lower) _ more (by omega) rfl
      · rw [← once] at fixed
        cases times with
        | zero => exact same_simplify_iff.mpr ⟨same, once ▸ fixed⟩
        | succ more =>
            rw [Function.iterate_succ_apply, Function.iterate_fixed (simplify_fixed fixed),
              simplify_fixed fixed]
            exact same_of_fixed fixed

/-- What has been simplified stays the same if it is simplified again exactly if a pass changes
nothing but the nesting of its alternatives and another pass changes nothing. Simplifying
often enough always leads to such an expression. -/
theorem simplify_idempotent_iff (regex : Regex) :
    (regex.simplify.simplify.same regex.simplify = true ↔
      (simplifyOnce regex.simplify).same regex.simplify = true ∧
        simplifyOnce (simplifyOnce regex.simplify) = simplifyOnce regex.simplify) ∧
    ∀ times, regex.weight ^ 3 + regex.weight ^ 2 ≤ times →
      (simplify (simplify^[times] regex)).same (simplify^[times] regex) = true := by
  refine ⟨same_simplify_iff, fun times enough => same_iterate_simplify regex times ?_⟩
  exact (Nat.add_le_add_left (disorder_le regex) _).trans enough

/-- `aa + a(ab + c)` -/
def sharesWithin : Regex :=
  alternative (sequence (symbol "a") (symbol "a"))
    (sequence (symbol "a") (alternative (sequence (symbol "a") (symbol "b")) (symbol "c")))

/-- That `a + (ab + c)` is the alternative of `a`, `ab` and `c` is what the last pass shows, but
its result is not kept. Simplifying again then finds the common factor of `a + ab`. -/
theorem sharesWithin_not_idempotent :
    sharesWithin.simplify = sequence (symbol "a") (alternative (symbol "a")
      (alternative (sequence (symbol "a") (symbol "b")) (symbol "c"))) ∧
    sharesWithin.simplify.simplify = sequence (symbol "a") (alternative
      (sequence (symbol "a") (alternative nil (symbol "b"))) (symbol "c")) ∧
    sharesWithin.simplify.simplify.same sharesWithin.simplify = false := by
  decide +kernel

/-! ## Sequences that nest to the left

A pass takes one operand out of a sequence that nests to the left, so the passes run out if
there are too many operands. -/

section NestedLeft

variable (name : String)

def nestedLeft : Nat → Regex
  | 0 => symbol name
  | count + 1 => sequence (nestedLeft count) (symbol name)

def leading (last : Regex) : Nat → Regex
  | 0 => last
  | count + 1 => sequence (symbol name) (leading last count)

theorem simplifyOnce_nestedLeft (count : Nat) : simplifyOnce (nestedLeft name (count + 1)) =
    sequence (symbol name) (nestedLeft name count) := by
  induction count with
  | zero => rfl
  | succ count induction =>
      rw [nestedLeft, simplifyOnce, induction]
      rfl

theorem simplifyOnce_leading (count rest : Nat) :
    simplifyOnce (leading name (nestedLeft name (rest + 1)) count) =
      leading name (nestedLeft name rest) (count + 1) := by
  induction count with
  | zero => exact simplifyOnce_nestedLeft name rest
  | succ count induction =>
      rw [leading, simplifyOnce, induction]
      rfl

theorem simplifyOnce_leading_symbol (count : Nat) :
    simplifyOnce (leading name (symbol name) count) = leading name (symbol name) count := by
  induction count with
  | zero => rfl
  | succ count induction =>
      rw [leading, simplifyOnce, induction]
      cases count <;> rfl

theorem regroup_nestedLeft (count : Nat) :
    regroup (nestedLeft name count) = nestedLeft name count := by
  induction count with
  | zero => rfl
  | succ count induction => exact congrArg (sequence · (symbol name)) induction

theorem regroup_leading (count rest : Nat) :
    regroup (leading name (nestedLeft name rest) count) =
      leading name (nestedLeft name rest) count := by
  induction count with
  | zero => exact regroup_nestedLeft name rest
  | succ count induction => exact congrArg (sequence (symbol name)) induction

/-- Every pass takes one operand out, as long as there are any. -/
theorem simplifyOnce_iterate_nestedLeft (passes rest : Nat) :
    simplifyOnce^[passes] (nestedLeft name (passes + rest)) =
      leading name (nestedLeft name rest) passes := by
  induction passes generalizing rest with
  | zero => rw [Nat.zero_add]; rfl
  | succ passes induction =>
      rw [Function.iterate_succ_apply', Nat.add_right_comm, Nat.add_assoc, induction,
        simplifyOnce_leading]

theorem simplifyOnce_iterate_nestedLeft_of_le {passes count : Nat} (enough : count ≤ passes) :
    simplifyOnce^[passes] (nestedLeft name count) = leading name (symbol name) count := by
  obtain ⟨more, rfl⟩ := Nat.exists_eq_add_of_le' enough
  rw [Function.iterate_add_apply]
  exact (congrArg _ (simplifyOnce_iterate_nestedLeft name count 0)).trans
    (Function.iterate_fixed (simplifyOnce_leading_symbol name count) more)

theorem regroup_iterate_nestedLeft (passes count : Nat) :
    regroup (simplifyOnce^[passes] (nestedLeft name count)) =
      simplifyOnce^[passes] (nestedLeft name count) := by
  rcases Nat.le_total passes count with few | enough
  · obtain ⟨rest, rfl⟩ := Nat.exists_eq_add_of_le few
    rw [simplifyOnce_iterate_nestedLeft]
    exact regroup_leading name passes rest
  · rw [simplifyOnce_iterate_nestedLeft_of_le name enough]
    exact regroup_leading name count 0

/-- Without alternatives, the passes stop when nothing at all changes. -/
theorem settle_eq_iterate (passes : Nat)
    (grouped : ∀ before, regroup (simplifyOnce^[before] regex) = simplifyOnce^[before] regex) :
    settle passes regex = simplifyOnce^[passes] regex := by
  induction passes generalizing regex with
  | zero => rfl
  | succ passes induction =>
      rw [settle]
      split
      case isTrue same =>
        have fixed := (same_simplifyOnce_iff.mp same).trans (grouped 0)
        exact (Function.iterate_fixed fixed (passes + 1)).symm
      case isFalse =>
        rw [Function.iterate_succ_apply]
        exact induction fun before => grouped (before + 1)

theorem simplify_nestedLeft (count : Nat) :
    (nestedLeft name count).simplify = simplifyOnce^[passLimit + 1] (nestedLeft name count) := by
  rw [simplify, settle_eq_iterate, ← Function.iterate_succ_apply]
  intro before
  rw [← Function.iterate_succ_apply]
  exact regroup_iterate_nestedLeft name (before + 1) count

theorem leading_succ (last : Regex) (count : Nat) :
    leading name last (count + 1) = leading name (sequence (symbol name) last) count := by
  induction count with
  | zero => rfl
  | succ count induction => rw [leading, induction, leading]

theorem leading_injective (count : Nat) : Function.Injective (leading name · count) := by
  induction count with
  | zero => exact Function.injective_id
  | succ count induction => exact fun _ _ equal => induction (Regex.sequence.inj equal).2

/-- Two operands are nested to the right as well as to the left, three are not. -/
theorem simplifyOnce_leading_fixed_iff (count rest : Nat) :
    simplifyOnce (leading name (nestedLeft name rest) count) =
      leading name (nestedLeft name rest) count ↔ rest ≤ 1 := by
  cases rest with
  | zero => exact iff_of_true (simplifyOnce_leading_symbol name count) (Nat.zero_le 1)
  | succ rest =>
      rw [simplifyOnce_leading, leading_succ, (leading_injective name count).eq_iff]
      cases rest with
      | zero => exact iff_of_true rfl le_rfl
      | succ rest => exact iff_of_false (fun equal => nomatch equal) (by omega)

/-- With more operands than there are passes, some are left to be taken out afterwards. -/
theorem simplify_nestedLeft_idempotent_iff (count : Nat) :
    (nestedLeft name count).simplify.simplify.same (nestedLeft name count).simplify = true ↔
      count ≤ passLimit + 2 := by
  have fixed : simplifyOnce (nestedLeft name count).simplify = (nestedLeft name count).simplify ↔
      count ≤ passLimit + 2 := by
    rw [simplify_nestedLeft]
    rcases Nat.le_total (passLimit + 1) count with few | enough
    · obtain ⟨rest, rfl⟩ := Nat.exists_eq_add_of_le few
      rw [simplifyOnce_iterate_nestedLeft, simplifyOnce_leading_fixed_iff]
      omega
    · rw [simplifyOnce_iterate_nestedLeft_of_le name enough]
      exact iff_of_true (simplifyOnce_leading_symbol name count) (by omega)
  rw [← fixed, same_simplify_iff]
  constructor
  · rintro ⟨same, -⟩
    rw [same_simplifyOnce_iff.mp same, simplify_nestedLeft, regroup_iterate_nestedLeft]
  · intro fixed
    rw [fixed]
    exact ⟨same_of_fixed fixed, fixed⟩

end NestedLeft

end FormalLanguages.Regex
