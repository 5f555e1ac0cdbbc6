import FormalLanguages.Proofs.Regex.Tidiness

namespace FormalLanguages.Regex

/-! # What becomes of an alternative

Pulling out what two sequences have in common may add an `ε` for what is left of one of
them. It makes their alternative lighter all the same, because expressions that are not the
same have neither `∅` nor `ε` in common. -/

variable {regex first second left right : Regex} {operands : List Regex}

/-! ## Operands that are left out -/

/-- No two of the operands are the same. -/
def Apart (regexes : List Regex) : Prop :=
  regexes.Pairwise fun before after => before.same after = false

theorem sublist_addOperand (known : List Regex) (operand : Regex) :
    (addOperand known operand).Sublist (known ++ [operand]) := by
  rw [addOperand]
  split
  · exact List.sublist_append_left known [operand]
  · exact List.Sublist.refl _

theorem apart_addOperand {known : List Regex} (apart : Apart known) (operand : Regex) :
    Apart (addOperand known operand) := by
  rw [addOperand]
  split
  case isTrue => exact apart
  case isFalse new =>
    refine List.pairwise_append.mpr ⟨apart, List.pairwise_singleton _ _, ?_⟩
    intro before inKnown after last
    rw [List.mem_singleton.mp last]
    simp only [Bool.or_eq_true, not_or, hasSame, List.any_eq_true, not_exists, not_and,
      Bool.not_eq_true] at new
    exact new.2 before inKnown

theorem sublist_foldl_addOperand (known operands : List Regex) :
    (operands.foldl addOperand known).Sublist (known ++ operands) := by
  induction operands generalizing known with
  | nil => rw [List.foldl_nil, List.append_nil]
  | cons head tail induction =>
      rw [List.foldl_cons, List.append_cons]
      exact (induction _).trans ((sublist_addOperand known head).append_right tail)

theorem apart_foldl_addOperand {known : List Regex} (apart : Apart known)
    (operands : List Regex) : Apart (operands.foldl addOperand known) := by
  induction operands generalizing known with
  | nil => exact apart
  | cons head tail induction => exact induction (apart_addOperand apart head)

theorem sublist_distinctOperands (left right : Regex) :
    (distinctOperands left right).Sublist (left.operands ++ right.operands) :=
  sublist_foldl_addOperand [] _

theorem apart_distinctOperands (left right : Regex) : Apart (distinctOperands left right) :=
  apart_foldl_addOperand List.Pairwise.nil _

theorem empty_not_mem_addOperand {known : List Regex} (none : empty ∉ known) (operand : Regex) :
    empty ∉ addOperand known operand := by
  rw [addOperand]
  split
  case isTrue => exact none
  case isFalse new =>
    simp only [Bool.or_eq_true, not_or] at new
    rw [List.mem_append, List.mem_singleton]
    rintro (inKnown | rfl)
    · exact none inKnown
    · exact new.1 rfl

theorem empty_not_mem_distinctOperands (left right : Regex) :
    empty ∉ distinctOperands left right :=
  List.foldlRecOn (motive := fun known => empty ∉ known) _ addOperand List.not_mem_nil
    fun _ none operand _ => empty_not_mem_addOperand none operand

/-! ## `ε` beside stars -/

theorem starFirstPlus_eq_some {starred : List Regex}
    (found : starFirstPlus operands = some starred) :
    ∃ before body inner after, operands = before ++ sequence body (star inner) :: after ∧
      starred = before ++ star body :: after := by
  induction operands generalizing starred with
  | nil => cases found
  | cons regex rest induction =>
      rw [starFirstPlus] at found
      split at found
      case h_1 body plus =>
        cases found
        rcases plusBody?_eq_some plus with ⟨inner, rfl, _⟩
        exact ⟨[], body, inner, rest, rfl, rfl⟩
      case h_2 =>
        rcases Option.map_eq_some_iff.mp found with ⟨others, later, rfl⟩
        rcases induction later with ⟨before, body, inner, after, rfl, rfl⟩
        exact ⟨regex :: before, body, inner, after, rfl, rfl⟩

theorem lighter_starFirstPlus {starred : List Regex}
    (found : starFirstPlus operands = some starred) :
    totalWeight starred < totalWeight operands := by
  rcases starFirstPlus_eq_some found with ⟨before, body, inner, after, rfl, rfl⟩
  simp only [totalWeight_append, totalWeight_cons, weight]
  omega

theorem apart_starFirstPlus {starred : List Regex} (apart : Apart operands)
    (unstarred : operands.any isStar = false) (found : starFirstPlus operands = some starred) :
    Apart starred := by
  rcases starFirstPlus_eq_some found with ⟨before, body, inner, after, rfl, rfl⟩
  simp only [List.any_append, List.any_cons, Bool.or_eq_false_iff, List.any_eq_false,
    Bool.not_eq_true] at unstarred
  rcases unstarred with ⟨noneBefore, -, noneAfter⟩
  simp only [Apart, List.pairwise_append, List.pairwise_cons, List.mem_cons, forall_eq_or_imp]
    at apart ⊢
  rcases apart with ⟨apartBefore, ⟨-, apartAfter⟩, across⟩
  refine ⟨apartBefore, ⟨fun other member => ?_, apartAfter⟩, fun other member => ⟨?_, ?_⟩⟩
  · refine Bool.eq_false_iff.mpr fun same => ?_
    exact Bool.noConfusion ((noneAfter other member).symm.trans (matched_of_same same).isStar.symm)
  · refine Bool.eq_false_iff.mpr fun same => ?_
    exact Bool.noConfusion ((noneBefore other member).symm.trans (matched_of_same same).isStar)
  · exact (across other member).2

/-- What becomes of operands among which `ε` may be. -/
inductive Absorbed (operands : List Regex) : List Regex → Prop
  | unchanged : Absorbed operands operands
  | besideStar (has : nil ∈ operands) : Absorbed operands (withoutNil operands)
  | besidePlus {starred : List Regex} (unstarred : operands.any isStar = false)
      (found : starFirstPlus operands = some starred) : Absorbed operands (withoutNil starred)

theorem absorbed_absorbNil (operands : List Regex) : Absorbed operands (absorbNil operands) := by
  rw [absorbNil]
  split
  case isFalse => exact .unchanged
  case isTrue some =>
    split
    case isTrue => exact .besideStar (any_isNil_iff.mp some)
    case isFalse none =>
      split
      case h_1 found => exact .besidePlus (Bool.eq_false_iff.mpr none) found
      case h_2 => exact .unchanged

theorem Absorbed.eq_or_lighter {absorbed : List Regex} (result : Absorbed operands absorbed) :
    absorbed = operands ∨ totalWeight absorbed < totalWeight operands := by
  cases result with
  | unchanged => exact .inl rfl
  | besideStar has => exact .inr (lighter_withoutNil has)
  | @besidePlus starred _ found =>
      have lighter := lighter_starFirstPlus found
      rcases eq_or_lighter_of_sublist (List.filter_sublist : (withoutNil starred).Sublist starred)
        with kept | less
      · exact .inr ((congrArg totalWeight kept).trans_lt lighter)
      · exact .inr (less.trans lighter)

theorem Absorbed.apart {absorbed : List Regex} (result : Absorbed operands absorbed)
    (apart : Apart operands) : Apart absorbed := by
  cases result with
  | unchanged => exact apart
  | besideStar => exact apart.filter _
  | besidePlus unstarred found => exact (apart_starFirstPlus apart unstarred found).filter _

theorem Absorbed.forall {kept : Regex → Prop} {absorbed : List Regex}
    (result : Absorbed operands absorbed) (all : ∀ operand, operand ∈ operands → kept operand)
    (starred : ∀ body inner, kept (sequence body (star inner)) → kept (star body)) :
    ∀ operand, operand ∈ absorbed → kept operand := by
  cases result with
  | unchanged => exact all
  | besideStar => exact fun operand member => all operand (mem_withoutNil.mp member).1
  | besidePlus unstarred found =>
      intro operand member
      have inStarred := (mem_withoutNil.mp member).1
      rcases starFirstPlus_eq_some found with ⟨before, body, inner, after, rfl, rfl⟩
      simp only [List.mem_append, List.mem_cons] at inStarred all
      rcases inStarred with inBefore | rfl | inAfter
      · exact all operand (.inl inBefore)
      · exact starred body inner (all _ (.inr (.inl rfl)))
      · exact all operand (.inr (.inr inAfter))

/-- What holds of the operands, `∅` aside, and of stars made of them holds of all that are kept. -/
theorem forall_absorbed {kept : Regex → Prop}
    (inLeft : ∀ operand, operand ∈ left.operands → operand ≠ empty → kept operand)
    (inRight : ∀ operand, operand ∈ right.operands → operand ≠ empty → kept operand)
    (starred : ∀ body inner, kept (sequence body (star inner)) → kept (star body)) :
    ∀ operand, operand ∈ absorbNil (distinctOperands left right) → kept operand := by
  refine (absorbed_absorbNil _).forall (fun operand member => ?_) starred
  have notEmpty : operand ≠ empty := fun equal =>
    empty_not_mem_distinctOperands left right (equal ▸ member)
  rcases List.mem_append.mp ((sublist_distinctOperands left right).subset member) with here | there
  · exact inLeft operand here notEmpty
  · exact inRight operand there notEmpty

/-! ## Common factors -/

theorem factors_eq_self_of_weight (one : regex.weight = 1) : regex.factors = [regex] := by
  rcases weight_eq_one_iff.mp one with rfl | rfl <;> rfl

/-- Two sequences are `shared` and `matching`, which are the same, and what is left of each. -/
structure SharedFactors (first second factored : Regex)
    (shared matching leftOver rightOver : List Regex) : Prop where
  some : shared ≠ []
  same : List.Forall₂ (fun here there => here.same there = true) shared matching
  firstParts : first.factors.Perm (shared ++ leftOver)
  secondParts : second.factors.Perm (matching ++ rightOver)
  result : ∃ parts, factored = catAll parts ∧
    parts.Perm (alternative (catAll leftOver) (catAll rightOver) :: shared)

theorem same_take_commonLength (lefts rights : List Regex) :
    List.Forall₂ (fun here there => here.same there = true)
      (lefts.take (commonLength lefts rights)) (rights.take (commonLength lefts rights)) := by
  fun_induction commonLength lefts rights with
  | case1 left lefts right rights same induction => exact .cons same induction
  | case2 => exact .nil
  | case3 => exact .nil

theorem same_drop_commonLength (lefts rights : List Regex) :
    List.Forall₂ (fun here there => here.same there = true)
      (lefts.drop (lefts.length - commonLength lefts.reverse rights.reverse))
      (rights.drop (rights.length - commonLength lefts.reverse rights.reverse)) := by
  have same := same_take_commonLength lefts.reverse rights.reverse
  rw [List.take_reverse, List.take_reverse] at same
  exact List.forall₂_reverse_iff.mp same

theorem sharedFactors_of_factorOut? {factored : Regex}
    (found : factorOut? first second = some factored) :
    ∃ shared matching leftOver rightOver,
      SharedFactors first second factored shared matching leftOver rightOver := by
  have someFactors := length_factors_pos first
  unfold factorOut? at found
  dsimp only at found
  split at found
  case isTrue atLeastOne =>
    cases found
    refine ⟨_, _, _, _, ?_, same_take_commonLength first.factors second.factors,
      .of_eq (List.take_append_drop _ _).symm, .of_eq (List.take_append_drop _ _).symm,
      _, rfl, List.perm_append_comm⟩
    rw [← List.length_pos_iff, List.length_take]
    omega
  case isFalse =>
    split at found
    case isFalse => cases found
    case isTrue atLeastOne =>
      cases found
      refine ⟨_, _, _, _, ?_, same_drop_commonLength first.factors second.factors, ?_, ?_,
        _, rfl, .refl _⟩
      · rw [← List.length_pos_iff, List.length_drop]
        omega
      · exact (List.Perm.of_eq (List.take_append_drop _ _).symm).trans List.perm_append_comm
      · exact (List.Perm.of_eq (List.take_append_drop _ _).symm).trans List.perm_append_comm

theorem eq_of_factors_perm {factor : Regex} (parts : regex.factors.Perm [factor]) :
    factor = regex := by
  rw [factors_eq_self parts.length_eq] at parts
  exact (List.singleton_perm_singleton.mp parts).symm

namespace SharedFactors

variable {factored : Regex} {shared matching leftOver rightOver : List Regex}

variable (parts : SharedFactors first second factored shared matching leftOver rightOver)
  (solidFirst : Solid first) (solidSecond : Solid second) (different : first.same second = false)

include parts solidFirst solidSecond different

omit solidFirst in
theorem one_lt_weight : 1 < first.weight := by
  rcases parts with ⟨some, same, firstParts, secondParts, -⟩
  cases same with
  | nil => exact absurd rfl some
  | @cons head other _ _ here _ =>
      have inFirst : head ∈ first.factors := firstParts.mem_iff.mpr List.mem_cons_self
      have inSecond : other ∈ second.factors := secondParts.mem_iff.mpr List.mem_cons_self
      by_contra light
      have one : first.weight = 1 := Nat.le_antisymm (Nat.not_lt.mp light) (weight_pos first)
      rw [factors_eq_self_of_weight one, List.mem_singleton] at inFirst
      have oneOther : other.weight = 1 :=
        (matched_of_same here).weight.symm.trans ((congrArg weight inFirst).trans one)
      have oneSecond : second.weight = 1 := by
        by_contra heavy
        have above := weight_pos second
        exact (solidSecond (by omega) other inSecond).ne' oneOther
      rw [factors_eq_self_of_weight oneSecond, List.mem_singleton] at inSecond
      rw [inFirst, inSecond, different] at here
      exact Bool.noConfusion here

/-- Expressions that are not the same have neither `∅` nor `ε` in common. -/
theorem heavy_shared (factor : Regex) (member : factor ∈ shared) : 1 < factor.weight :=
  solidFirst (parts.one_lt_weight solidSecond different) factor
    (parts.firstParts.mem_iff.mpr (List.mem_append_left _ member))

omit solidFirst solidSecond different in
/-- What is left over is put beside what is shared. -/
theorem exists_pieces : ∃ pieces, factored = catAll pieces ∧ 1 < pieces.length ∧
    pieces.Perm (alternative (catAll leftOver) (catAll rightOver) :: shared) := by
  rcases parts.result with ⟨pieces, equal, order⟩
  refine ⟨pieces, equal, ?_, order⟩
  rw [order.length_eq, List.length_cons]
  exact Nat.lt_add_of_pos_left (List.length_pos_iff.mpr parts.some)

omit solidFirst solidSecond in
/-- Sequences that share all of their factors share several, as they are not the same. -/
theorem exists_cons_cons (noLeft : leftOver = []) (noRight : rightOver = []) :
    ∃ head next others, shared = head :: next :: others := by
  rcases parts with ⟨some, same, firstParts, secondParts, -⟩
  rw [noLeft, List.append_nil] at firstParts
  rw [noRight, List.append_nil] at secondParts
  match shared, some with
  | head :: next :: others, _ => exact ⟨head, next, others, rfl⟩
  | [head], _ =>
      rcases List.forall₂_cons_left_iff.mp same with ⟨other, rest, here, noMore, rfl⟩
      rw [List.forall₂_nil_left_iff.mp noMore] at secondParts
      rw [eq_of_factors_perm firstParts, eq_of_factors_perm secondParts, different] at here
      exact Bool.noConfusion here

/-- What is shared weighs more than the `ε` that may stand for what is left over. -/
theorem lighter_leftOver :
    (catAll leftOver).weight + (catAll rightOver).weight + 2 <
      totalWeight shared + totalWeight leftOver + totalWeight rightOver := by
  have heavy := parts.heavy_shared solidFirst solidSecond different
  have shares := parts.exists_cons_cons different
  rcases List.exists_cons_of_ne_nil parts.some with ⟨head, others, rfl⟩
  have heavyHead := heavy head List.mem_cons_self
  rw [totalWeight_cons]
  rcases eq_or_ne leftOver [] with rfl | someLeft <;>
    rcases eq_or_ne rightOver [] with rfl | someRight
  · rcases shares rfl rfl with ⟨_, next, others, equal⟩
    cases equal
    have heavyNext := heavy next (List.mem_cons_of_mem _ List.mem_cons_self)
    simp only [catAll, weight, totalWeight_nil, totalWeight_cons]
    omega
  · have whole := weight_catAll someRight
    simp only [catAll, weight, totalWeight_nil]
    omega
  · have whole := weight_catAll someLeft
    simp only [catAll, weight, totalWeight_nil]
    omega
  · have wholeLeft := weight_catAll someLeft
    have wholeRight := weight_catAll someRight
    omega

theorem lighter : factored.weight < (alternative first second).weight := by
  have gained := parts.lighter_leftOver solidFirst solidSecond different
  rcases parts.exists_pieces with ⟨pieces, rfl, several, order⟩
  rcases parts with ⟨-, same, firstParts, secondParts, -⟩
  have wholeFirst := totalWeight_factors first
  have wholeSecond := totalWeight_factors second
  have sharedWeight : totalWeight shared = totalWeight matching :=
    totalWeight_eq_of_matched (same.imp fun _ _ => matched_of_same)
  have whole := weight_catAll (List.ne_nil_of_length_pos (Nat.lt_of_succ_lt several))
  rw [totalWeight_eq_of_perm firstParts, totalWeight_append] at wholeFirst
  rw [totalWeight_eq_of_perm secondParts, totalWeight_append] at wholeSecond
  rw [totalWeight_eq_of_perm order, totalWeight_cons, weight] at whole
  rw [weight]
  omega

theorem tidy : Tidy factored := by
  have heavy := parts.heavy_shared solidFirst solidSecond different
  rcases parts.exists_pieces with ⟨pieces, rfl, several, order⟩
  refine tidy_of_factors (operands_catAll several) fun factor member => ?_
  rw [factors_catAll (List.ne_nil_of_length_pos (Nat.lt_of_succ_lt several))] at member
  rcases List.mem_flatMap.mp member with ⟨piece, inPieces, inPiece⟩
  rcases List.mem_cons.mp (order.mem_iff.mp inPieces) with rfl | inShared
  · exact List.mem_singleton.mp inPiece ▸ one_lt_weight_alternative _ _
  · rw [factors_of_mem_factors (parts.firstParts.mem_iff.mpr (List.mem_append_left _ inShared)),
      List.mem_singleton] at inPiece
    exact inPiece ▸ heavy piece inShared

end SharedFactors

/-! ## Alternatives -/

/-- The operands that an alternative is made of again. -/
theorem absorbed_eq_or_lighter (left right : Regex) :
    absorbNil (distinctOperands left right) = left.operands ++ right.operands ∨
      totalWeight (absorbNil (distinctOperands left right)) ≤
        (alternative left right).weight := by
  have whole := totalWeight_operands (alternative left right)
  rw [operands] at whole
  rcases (absorbed_absorbNil (distinctOperands left right)).eq_or_lighter with same | lighter <;>
    rcases eq_or_lighter_of_sublist (sublist_distinctOperands left right) with all | fewer
  · exact .inl (same.trans all)
  · rw [same]
    exact .inr (by omega)
  · rw [all] at lighter ⊢
    exact .inr (by omega)
  · exact .inr (by omega)

theorem simplifyAlternative_cases (left right : Regex) :
    simplifyAlternative left right = altAll (absorbNil (distinctOperands left right)) ∨
      ∃ first second, absorbNil (distinctOperands left right) = [first, second] ∧
        factorOut? first second = some (simplifyAlternative left right) := by
  rw [simplifyAlternative]
  split
  case h_2 => exact .inl rfl
  case h_1 first second operands =>
    cases found : factorOut? first second with
    | none => exact .inl rfl
    | some factored => exact .inr ⟨first, second, operands, found⟩

theorem different_of_absorbed (pair : absorbNil (distinctOperands left right) = [first, second]) :
    first.same second = false := by
  have apart := (absorbed_absorbNil _).apart (apart_distinctOperands left right)
  rw [pair] at apart
  exact List.rel_of_pairwise_cons apart List.mem_cons_self

section Alternatives

variable (tidyLeft : Tidy left) (tidyRight : Tidy right)

include tidyLeft tidyRight

theorem tidy_absorbed :
    ∀ operand, operand ∈ absorbNil (distinctOperands left right) → Tidy operand :=
  forall_absorbed
    (fun operand inLeft _ => (tidyLeft operand inLeft).tidy (operands_of_mem_operands inLeft))
    (fun operand inRight _ => (tidyRight operand inRight).tidy (operands_of_mem_operands inRight))
    fun body _ _ => tidy_star body

theorem solid_of_absorbed (pair : absorbNil (distinctOperands left right) = [first, second]) :
    Solid first ∧ Solid second := by
  have tidy := tidy_absorbed tidyLeft tidyRight
  rw [pair] at tidy
  exact ⟨(tidy first List.mem_cons_self).solid,
    (tidy second (List.mem_cons_of_mem _ List.mem_cons_self)).solid⟩

theorem tidy_simplifyAlternative : Tidy (simplifyAlternative left right) := by
  rcases simplifyAlternative_cases left right with all | ⟨first, second, pair, found⟩
  · exact all ▸ tidy_altAll (tidy_absorbed tidyLeft tidyRight)
  · rcases sharedFactors_of_factorOut? found with ⟨_, _, _, _, parts⟩
    rcases solid_of_absorbed tidyLeft tidyRight pair with ⟨solidFirst, solidSecond⟩
    exact parts.tidy solidFirst solidSecond (different_of_absorbed pair)

/-- An alternative becomes lighter, or else it is made of its operands again. -/
theorem simplifyAlternative_eq_or_lighter :
    simplifyAlternative left right = altAll (left.operands ++ right.operands) ∨
      (simplifyAlternative left right).weight < (alternative left right).weight := by
  have whole := totalWeight_operands (alternative left right)
  rw [operands] at whole
  rcases simplifyAlternative_cases left right with all | ⟨first, second, pair, found⟩
  · rcases absorbed_eq_or_lighter left right with same | lighter
    · exact .inl (all.trans (congrArg altAll same))
    · exact .inr (all ▸ weight_altAll_lt lighter (one_lt_weight_alternative left right))
  · right
    rcases sharedFactors_of_factorOut? found with ⟨_, _, _, _, parts⟩
    rcases solid_of_absorbed tidyLeft tidyRight pair with ⟨solidFirst, solidSecond⟩
    have lighter := parts.lighter solidFirst solidSecond (different_of_absorbed pair)
    rw [weight] at lighter
    rcases absorbed_eq_or_lighter left right with same | less
    · rw [← same, pair] at whole
      simp only [totalWeight_cons, totalWeight_nil] at whole
      omega
    · rw [pair] at less
      simp only [totalWeight_cons, totalWeight_nil] at less
      omega

end Alternatives

end FormalLanguages.Regex
