import FormalLanguages.Proofs.Regex.Idempotence
import FormalLanguages.Proofs.Regex.Nodes

namespace FormalLanguages.Regex

/-! # Passes settle

No pass adds nodes. Some identities keep their number, but each of these makes the expression
lighter or less disordered, so passes without end would run out of identities to use. -/

variable {regex left right first second : Regex} {operands : List Regex}

/-! ## Sequences -/

theorem size_starThen_le (body next : Regex) :
    (starThen body next).size ≤ (sequence (star body) next).size := by
  rcases moved_starThen body next with ⟨head, tail, rfl, moved⟩
  generalize starThen body (continued head tail) = result at moved ⊢
  have whole := totalSize_factors body
  cases moved with
  | stays => exact Nat.le_refl _
  | behind => cases tail <;> simp only [continued, size_sequence, size_star] <;> omega
  | @merged first inner rest listed _ starred =>
      cases starred
      have bound := size_catAll_le rest
      have some := size_pos first
      rw [listed, totalSize_cons] at whole
      cases tail <;> simp only [continued, size_sequence, size_star, size_alternative] <;> omega
  | @rotated first rest listed same =>
      have some : rest ++ [head] ≠ [] := List.append_ne_nil_of_right_ne_nil rest (by simp)
      have turned := size_catAll some
      rw [listed, totalSize_cons, size_eq_of_same same] at whole
      rw [totalSize_append, totalSize_cons, totalSize_nil] at turned
      cases tail <;> simp only [continued, size_sequence, size_star] <;> omega

theorem size_simplifySequence_le (first second : Regex) :
    (simplifySequence first second).size ≤ (sequence first second).size := by
  have someFirst := size_pos first
  have someSecond := size_pos second
  fun_cases simplifySequence first second with
  | case1 => rw [size_sequence]; omega
  | case2 => rw [size_sequence]; omega
  | case3 => rw [size_sequence]; omega
  | case4 => rw [size_sequence]; omega
  | case5 first middle => simp only [size_sequence]; omega
  | case6 body => exact size_starThen_le body second
  | case7 => exact Nat.le_refl _

/-! ## Alternatives -/

theorem Absorbed.totalSize_le {absorbed : List Regex} (result : Absorbed operands absorbed) :
    totalSize absorbed ≤ totalSize operands := by
  cases result with
  | unchanged => exact Nat.le_refl _
  | besideStar => exact totalSize_le_of_sublist List.filter_sublist
  | besidePlus _ found =>
      refine (totalSize_le_of_sublist List.filter_sublist).trans ?_
      rcases starFirstPlus_eq_some found with ⟨before, body, inner, after, rfl, rfl⟩
      simp only [totalSize_append, totalSize_cons, size_sequence, size_star]
      omega

theorem totalSize_absorbed_le (left right : Regex) :
    totalSize (absorbNil (distinctOperands left right)) ≤ (alternative left right).size + 1 :=
  calc totalSize (absorbNil (distinctOperands left right))
    _ ≤ totalSize (distinctOperands left right) := (absorbed_absorbNil _).totalSize_le
    _ ≤ totalSize (left.operands ++ right.operands) :=
      totalSize_le_of_sublist (sublist_distinctOperands left right)
    _ = (alternative left right).size + 1 := totalSize_operands (alternative left right)

namespace SharedFactors

variable {factored : Regex} {shared matching leftOver rightOver : List Regex}
  (parts : SharedFactors first second factored shared matching leftOver rightOver)
  (different : first.same second = false)

include parts different

/-- What is shared is no smaller than the `ε` that may stand for what is left over. -/
theorem size_leftOver_le :
    (catAll leftOver).size + (catAll rightOver).size + 2 ≤
      totalSize shared + totalSize leftOver + totalSize rightOver := by
  have shares := parts.exists_cons_cons different
  rcases List.exists_cons_of_ne_nil parts.some with ⟨head, others, rfl⟩
  have someHead := size_pos head
  rw [totalSize_cons]
  rcases eq_or_ne leftOver [] with rfl | someLeft <;>
    rcases eq_or_ne rightOver [] with rfl | someRight
  · rcases shares rfl rfl with ⟨_, next, others, equal⟩
    cases equal
    have someNext := size_pos next
    simp only [catAll, size_nil, totalSize_nil, totalSize_cons]
    omega
  · have whole := size_catAll someRight
    simp only [catAll, size_nil, totalSize_nil]
    omega
  · have whole := size_catAll someLeft
    simp only [catAll, size_nil, totalSize_nil]
    omega
  · have wholeLeft := size_catAll someLeft
    have wholeRight := size_catAll someRight
    omega

theorem size_le : factored.size ≤ (alternative first second).size := by
  have gained := parts.size_leftOver_le different
  rcases parts.exists_pieces with ⟨pieces, rfl, several, order⟩
  rcases parts with ⟨-, same, firstParts, secondParts, -⟩
  have wholeFirst := totalSize_factors first
  have wholeSecond := totalSize_factors second
  have sharedSize : totalSize shared = totalSize matching :=
    totalSize_eq_of_forall₂ (same.imp fun _ _ => size_eq_of_same)
  have whole := size_catAll (List.ne_nil_of_length_pos (Nat.lt_of_succ_lt several))
  rw [totalSize_eq_of_perm firstParts, totalSize_append] at wholeFirst
  rw [totalSize_eq_of_perm secondParts, totalSize_append] at wholeSecond
  rw [totalSize_eq_of_perm order, totalSize_cons, size_alternative] at whole
  rw [size_alternative]
  omega

end SharedFactors

theorem size_simplifyAlternative_le (left right : Regex) :
    (simplifyAlternative left right).size ≤ (alternative left right).size := by
  have few := totalSize_absorbed_le left right
  rcases simplifyAlternative_cases left right with all | ⟨first, second, pair, found⟩
  · exact all ▸ size_altAll_le few (size_pos _)
  · rcases sharedFactors_of_factorOut? found with ⟨_, _, _, _, parts⟩
    have smaller := parts.size_le (different_of_absorbed pair)
    rw [pair, totalSize_cons, totalSize_cons, totalSize_nil] at few
    rw [size_alternative first] at smaller
    omega

/-! ## Stars -/

theorem totalSize_starBodies_le {regexes : List Regex} (all : regexes.all isStar = true) :
    totalSize (regexes.map starBody) ≤ totalSize regexes := by
  induction regexes with
  | nil => exact Nat.le_refl _
  | cons head tail induction =>
      rcases Bool.and_eq_true_iff.mp all with ⟨here, later⟩
      rcases isStar_iff.mp here with ⟨body, rfl⟩
      have inTail := induction later
      rw [List.map_cons, totalSize_cons, totalSize_cons, starBody, size_star]
      omega

theorem size_simplifyStar_le (inner : Regex) : (simplifyStar inner).size ≤ (star inner).size := by
  fun_cases simplifyStar inner with
  | case1 => decide
  | case2 => decide
  | case3 body => exact Nat.le_succ _
  | case4 left right some =>
      have few : totalSize (withoutNil (alternative left right).operands) ≤ _ :=
        totalSize_le_of_sublist List.filter_sublist
      rw [totalSize_operands] at few
      rw [if_pos some]
      exact Nat.succ_le_succ (size_altAll_le few (size_pos _))
  | case5 left right none => rw [if_neg none]
  | case6 first second all =>
      have few := totalSize_starBodies_le all
      rw [totalSize_factors] at few
      rw [if_pos all]
      exact Nat.succ_le_succ (size_altAll_le few (size_pos _))
  | case7 first second some => rw [if_neg some]
  | case8 => exact Nat.le_refl _

/-! ## Passes -/

theorem size_simplifyOnce_le (regex : Regex) : (simplifyOnce regex).size ≤ regex.size := by
  induction regex with
  | sequence first second inFirst inSecond =>
      refine (size_simplifySequence_le _ _).trans ?_
      rw [size_sequence, size_sequence]
      omega
  | alternative left right inLeft inRight =>
      refine (size_simplifyAlternative_le _ _).trans ?_
      rw [size_alternative, size_alternative]
      omega
  | star body inBody => exact (size_simplifyStar_le _).trans (Nat.succ_le_succ inBody)
  | _ => exact Nat.le_refl _

/-- A pass never adds nodes, and repeated often enough, passes come to an expression that no
further pass changes. -/
theorem simplifyOnce_settles (regex : Regex) :
    (simplifyOnce regex).nodes.length ≤ regex.nodes.length ∧
    ∃ passes, passes ≤ 2 * (regex.weight ^ 3 + regex.weight ^ 2) + 1 ∧
      (simplifyOnce^[passes + 1] regex).same (simplifyOnce^[passes] regex) = true ∧
      ∀ more, simplifyOnce^[passes + more] regex = simplifyOnce^[passes] regex := by
  have few : 2 * regex.potential + 1 ≤ 2 * (regex.weight ^ 3 + regex.weight ^ 2) + 1 :=
    Nat.succ_le_succ (Nat.mul_le_mul_left 2 (Nat.add_le_add_left (disorder_le regex) _))
  have fixed := simplifyOnce_iterate_fixed regex _ (Nat.lt_succ_self (2 * regex.potential))
  refine ⟨size_simplifyOnce_le regex, _, few, ?_, fun more => ?_⟩
  · rw [Function.iterate_succ_apply', fixed]
    exact same_of_fixed fixed
  · rw [Nat.add_comm, Function.iterate_add_apply]
    exact Function.iterate_fixed fixed more

end FormalLanguages.Regex
