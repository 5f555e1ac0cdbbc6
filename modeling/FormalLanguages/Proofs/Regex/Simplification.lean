import FormalLanguages.Proofs.Regex.Sameness
import FormalLanguages.Regex.Simplification
import Mathlib.Algebra.Order.BigOperators.Group.List

/-! # Simplifying keeps the language

Expressions that are the same match the same words, and so do the two sides of every
identity that a pass uses. Nothing depends on what the names stand for. -/

namespace FormalLanguages

open scoped Computability

/-! ## Laws of Kleene algebra -/

section KleeneAlgebra

variable {κ : Type} [KleeneAlgebra κ]

theorem kstar_mul_slide (a b : κ) : (a * b)∗ * a = a * (b * a)∗ := by
  apply le_antisymm
  · apply kstar_mul_le
    · exact le_mul_of_one_le_right' one_le_kstar
    · calc a * b * (a * (b * a)∗) = a * (b * a * (b * a)∗) := by simp only [mul_assoc]
        _ ≤ a * (b * a)∗ := mul_le_mul_right mul_kstar_le_kstar a
  · apply mul_kstar_le
    · exact le_mul_of_one_le_left' one_le_kstar
    · calc (a * b)∗ * a * (b * a) = (a * b)∗ * (a * b) * a := by simp only [mul_assoc]
        _ ≤ (a * b)∗ * a := mul_le_mul_left kstar_mul_le_kstar a

theorem kstar_denest (a b : κ) : (a∗ * b)∗ * a∗ = (a + b)∗ := by
  have left : a ≤ (a + b)∗ := le_trans le_self_add le_kstar
  have right : b ≤ (a + b)∗ := le_trans le_add_self le_kstar
  have leftStar : a∗ ≤ (a + b)∗ := (kstar_mono left).trans_eq (kstar_idem _)
  apply le_antisymm
  · have inner : (a∗ * b)∗ ≤ (a + b)∗ := by
      refine (kstar_mono ?_).trans_eq (kstar_idem _)
      exact (mul_le_mul' leftStar right).trans_eq (kstar_mul_kstar _)
    exact (mul_le_mul' inner leftStar).trans_eq (kstar_mul_kstar _)
  · apply kstar_le_of_mul_le_right
    · exact (one_mul (1 : κ)).symm.le.trans (mul_le_mul' one_le_kstar one_le_kstar)
    · rw [add_mul]
      apply add_le
      · -- Seen as `a∗(ba∗)∗`, the product may begin with one more `a`.
        rw [kstar_mul_slide, ← mul_assoc]
        exact mul_le_mul_left mul_kstar_le_kstar _
      · calc b * ((a∗ * b)∗ * a∗) ≤ a∗ * (b * ((a∗ * b)∗ * a∗)) :=
              le_mul_of_one_le_left' one_le_kstar
          _ = a∗ * b * (a∗ * b)∗ * a∗ := by simp only [mul_assoc]
          _ ≤ (a∗ * b)∗ * a∗ := mul_le_mul_left mul_kstar_le_kstar _

theorem kstar_one_add (a : κ) : (1 + a)∗ = a∗ :=
  le_antisymm
    ((kstar_mono (add_le one_le_kstar le_kstar)).trans_eq (kstar_idem a))
    (kstar_mono le_add_self)

theorem one_le_prod_kstar (factors : List κ) : 1 ≤ (factors.map fun factor => factor∗).prod :=
  List.one_le_prod_of_one_le fun factor member => by
    rcases List.mem_map.mp member with ⟨base, _, rfl⟩
    exact one_le_kstar

theorem prod_kstar_le_kstar_sum (factors : List κ) :
    (factors.map fun factor => factor∗).prod ≤ factors.sum∗ := by
  induction factors with
  | nil => exact one_le_kstar
  | cons first rest induction =>
      rw [List.map_cons, List.prod_cons, List.sum_cons]
      have inFirst : first∗ ≤ (first + rest.sum)∗ := kstar_mono le_self_add
      have inRest := induction.trans (kstar_mono (le_add_self (a := rest.sum) (b := first)))
      exact (mul_le_mul' inFirst inRest).trans_eq (kstar_mul_kstar _)

theorem sum_le_prod_kstar (factors : List κ) :
    factors.sum ≤ (factors.map fun factor => factor∗).prod := by
  induction factors with
  | nil => exact zero_le
  | cons first rest induction =>
      rw [List.map_cons, List.prod_cons, List.sum_cons]
      apply add_le
      · exact le_kstar.trans (le_mul_of_one_le_right' (one_le_prod_kstar rest))
      · exact induction.trans (le_mul_of_one_le_left' one_le_kstar)

theorem kstar_prod_kstar (factors : List κ) :
    (factors.map fun factor => factor∗).prod∗ = factors.sum∗ :=
  le_antisymm
    ((kstar_mono (prod_kstar_le_kstar_sum factors)).trans_eq (kstar_idem _))
    (kstar_mono (sum_le_prod_kstar factors))

end KleeneAlgebra

namespace Regex

variable {α : Type} {meaning : Meaning α}

/-! ## Sequences -/

/-- Where nothing follows, the rest of a sequence is empty. -/
def tailLanguage (meaning : Meaning α) : Option Regex → Language α
  | none => 1
  | some tail => language meaning tail

@[simp] theorem language_continued (regex : Regex) (tail : Option Regex) :
    language meaning (continued regex tail) = language meaning regex * tailLanguage meaning tail := by
  cases tail with
  | none => exact (mul_one _).symm
  | some tail => exact language_sequence regex tail

theorem language_of_splitHead {regex head : Regex} {tail : Option Regex}
    (parts : splitHead regex = (head, tail)) :
    language meaning regex = language meaning head * tailLanguage meaning tail := by
  cases regex with
  | sequence first rest =>
      cases parts
      exact language_sequence _ _
  | _ =>
      cases parts
      exact (mul_one _).symm

theorem language_of_factors (meaning : Meaning α) {regex first : Regex} {rest : List Regex}
    (parts : regex.factors = first :: rest) :
    language meaning regex = language meaning first * language meaning (catAll rest) := by
  rw [← prod_factors, parts, languages_cons, List.prod_cons, language_catAll]

/-- Behind what a star repeats, the star is the same as in front of it. -/
theorem language_rotated (first : Regex) {head body last : Regex} {tail : Option Regex}
    (whole : language meaning body = language meaning head * language meaning first)
    (rotated : language meaning last = language meaning first * language meaning head) :
    language meaning (sequence head (continued (star last) tail)) =
      (language meaning body)∗ * (language meaning head * tailLanguage meaning tail) := by
  rw [language_sequence, language_continued, language_star, rotated, whole, ← mul_assoc,
    ← mul_assoc, kstar_mul_slide]

theorem language_starThen (body next : Regex) :
    language meaning (starThen body next) = (language meaning body)∗ * language meaning next := by
  rw [starThen]
  rcases parts : splitHead next with ⟨head, tail⟩
  have unchanged : language meaning (sequence (star body) next) =
      (language meaning body)∗ * language meaning next := by
    rw [language_sequence, language_star]
  dsimp only
  split
  case isTrue same =>
    rw [language_of_splitHead parts]
    refine language_rotated nil ?_ ?_
    · rw [language_nil, mul_one, language_eq_of_same same]
    · rw [language_nil, one_mul, language_eq_of_same same]
  case isFalse =>
    split
    case h_2 => exact unchanged
    case h_1 =>
      split
      case h_1 => exact unchanged
      case h_2 first rest listed =>
        have whole := language_of_factors meaning listed
        split
        case isFalse => exact unchanged
        case isTrue same =>
          rw [language_eq_of_same same] at whole
          rw [language_of_splitHead parts]
          split
          case h_1 inner =>
            rw [language_continued, whole, language_star, language_star, language_alternative,
              ← mul_assoc, kstar_denest]
          case h_2 =>
            refine language_rotated (catAll rest) whole ?_
            rw [language_catAll, languages_append, List.prod_append, language_catAll]
            simp

theorem language_simplifySequence (first second : Regex) :
    language meaning (simplifySequence first second) =
      language meaning first * language meaning second := by
  fun_cases simplifySequence first second with
  | case1 => simp
  | case2 => simp
  | case3 => simp
  | case4 => simp
  | case5 first middle => simp only [language_sequence, mul_assoc]
  | case6 body => rw [language_starThen, language_star]
  | case7 => exact language_sequence _ _

/-! ## Alternatives -/

theorem isEmptyLiteral_iff {regex : Regex} : regex.isEmptyLiteral = true ↔ regex = empty := by
  cases regex <;> simp [isEmptyLiteral]

theorem isNil_iff {regex : Regex} : regex.isNil = true ↔ regex = nil := by
  cases regex <;> simp [isNil]

theorem isStar_iff {regex : Regex} : regex.isStar = true ↔ ∃ body, regex = star body := by
  cases regex <;> simp [isStar]

theorem mem_withoutNil {regex : Regex} {operands : List Regex} :
    regex ∈ withoutNil operands ↔ regex ∈ operands ∧ regex ≠ nil := by
  rw [withoutNil, List.mem_filter, Bool.not_eq_true', ← Bool.not_eq_true, isNil_iff]

theorem any_isNil_iff {operands : List Regex} : operands.any isNil = true ↔ nil ∈ operands := by
  simp only [List.any_eq_true, isNil_iff, exists_eq_right]

theorem language_le_sum {regex : Regex} {regexes : List Regex} (member : regex ∈ regexes) :
    language meaning regex ≤ (languages meaning regexes).sum := by
  induction regexes with
  | nil => cases member
  | cons head tail induction =>
      rw [languages_cons, List.sum_cons]
      rcases List.mem_cons.mp member with rfl | later
      · exact le_self_add
      · exact (induction later).trans le_add_self

theorem sum_le {regexes : List Regex} {bound : Language α}
    (all : ∀ regex, regex ∈ regexes → language meaning regex ≤ bound) :
    (languages meaning regexes).sum ≤ bound := by
  induction regexes with
  | nil => exact zero_le
  | cons head tail induction =>
      rw [languages_cons, List.sum_cons]
      apply add_le (all head List.mem_cons_self)
      exact induction fun regex member => all regex (List.mem_cons_of_mem _ member)

theorem sum_addOperand (known : List Regex) (operand : Regex) :
    (languages meaning (addOperand known operand)).sum =
      (languages meaning known).sum + language meaning operand := by
  rw [addOperand]
  split
  case isTrue spared =>
    rcases Bool.or_eq_true_iff.mp spared with literal | has
    · rw [isEmptyLiteral_iff.mp literal, language_empty, add_zero]
    · rcases exists_same_of_hasSame meaning has with ⟨other, member, equal⟩
      exact (add_eq_left_iff_le.mpr (equal ▸ language_le_sum member)).symm
  case isFalse => simp

theorem sum_foldl_addOperand (operands known : List Regex) :
    (languages meaning (operands.foldl addOperand known)).sum =
      (languages meaning known).sum + (languages meaning operands).sum := by
  induction operands generalizing known with
  | nil => simp
  | cons operand rest induction =>
      rw [List.foldl_cons, induction, sum_addOperand, languages_cons, List.sum_cons, add_assoc]

theorem sum_distinctOperands (left right : Regex) :
    (languages meaning (distinctOperands left right)).sum =
      language meaning left + language meaning right := by
  rw [distinctOperands, sum_foldl_addOperand, languages_append, List.sum_append, sum_operands,
    sum_operands, languages_nil, List.sum_nil, zero_add]

/-! `ε` adds nothing beside a star. -/

theorem sum_withoutNil {operands : List Regex} (has : nil ∈ operands) :
    (languages meaning operands).sum = 1 + (languages meaning (withoutNil operands)).sum := by
  apply le_antisymm
  · refine sum_le fun regex member => ?_
    by_cases isNil : regex = nil
    · rw [isNil, language_nil]
      exact le_self_add
    · exact (language_le_sum (mem_withoutNil.mpr ⟨member, isNil⟩)).trans le_add_self
  · apply add_le
    · exact language_nil.symm.le.trans (language_le_sum has)
    · exact sum_le fun regex kept => language_le_sum (mem_withoutNil.mp kept).1

theorem sum_withoutNil_of_star {operands : List Regex} {body : Regex} (has : nil ∈ operands)
    (starred : star body ∈ operands) :
    (languages meaning (withoutNil operands)).sum = (languages meaning operands).sum := by
  have kept : star body ∈ withoutNil operands := mem_withoutNil.mpr ⟨starred, nofun⟩
  have one_le : 1 ≤ language meaning (star body) := language_star body ▸ one_le_kstar
  rw [sum_withoutNil has]
  exact (add_eq_right_iff_le.mpr (one_le.trans (language_le_sum kept))).symm

theorem plusBody?_eq_some {regex body : Regex} (found : plusBody? regex = some body) :
    ∃ inner, regex = sequence body (star inner) ∧ inner.same body = true := by
  unfold plusBody? at found
  split at found
  case h_2 => cases found
  case h_1 head inner =>
    split at found
    case isFalse => cases found
    case isTrue same =>
      cases found
      exact ⟨inner, rfl, same⟩

theorem sum_starFirstPlus (meaning : Meaning α) {operands starred : List Regex}
    (found : starFirstPlus operands = some starred) :
    1 + (languages meaning operands).sum = (languages meaning starred).sum ∧
      (∃ body, star body ∈ starred) ∧ (nil ∈ operands → nil ∈ starred) := by
  induction operands generalizing starred with
  | nil => cases found
  | cons head tail induction =>
      rw [starFirstPlus] at found
      split at found
      case h_1 body plus =>
        cases found
        rcases plusBody?_eq_some plus with ⟨inner, rfl, same⟩
        refine ⟨?_, ⟨body, List.mem_cons_self⟩, fun has => ?_⟩
        · rw [languages_cons, languages_cons, List.sum_cons, List.sum_cons, language_sequence,
            language_star, language_star, language_eq_of_same same, ← add_assoc,
            one_add_mul_kstar]
        · exact List.mem_cons_of_mem _ ((List.mem_cons.mp has).resolve_left nofun)
      case h_2 =>
        rcases Option.map_eq_some_iff.mp found with ⟨rest, later, rfl⟩
        rcases induction later with ⟨equal, ⟨body, member⟩, keeps⟩
        refine ⟨?_, ⟨body, List.mem_cons_of_mem _ member⟩, fun has => ?_⟩
        · rw [languages_cons, languages_cons, List.sum_cons, List.sum_cons, add_left_comm, equal]
        · exact List.mem_cons.mpr ((List.mem_cons.mp has).imp_right keeps)

theorem sum_absorbNil (operands : List Regex) :
    (languages meaning (absorbNil operands)).sum = (languages meaning operands).sum := by
  rw [absorbNil]
  split
  case isFalse => rfl
  case isTrue some =>
    have has := any_isNil_iff.mp some
    split
    case isTrue starred =>
      rcases List.any_eq_true.mp starred with ⟨regex, member, isStar⟩
      rcases isStar_iff.mp isStar with ⟨body, rfl⟩
      exact sum_withoutNil_of_star has member
    case isFalse =>
      split
      case h_2 => rfl
      case h_1 starred found =>
        rcases sum_starFirstPlus meaning found with ⟨equal, ⟨body, member⟩, keeps⟩
        rw [sum_withoutNil_of_star (keeps has) member, ← equal, sum_withoutNil has, ← add_assoc,
          add_idem]

/-! What two sequences have in common may be pulled out of their alternative. -/

theorem take_commonLength (meaning : Meaning α) (lefts rights : List Regex) :
    languages meaning (lefts.take (commonLength lefts rights)) =
      languages meaning (rights.take (commonLength lefts rights)) := by
  fun_induction commonLength lefts rights with
  | case1 left lefts right rights same induction =>
      rw [List.take_succ_cons, List.take_succ_cons, languages_cons, languages_cons, induction,
        language_eq_of_same same]
  | case2 => simp
  | case3 => simp

theorem drop_commonLength (lefts rights : List Regex) :
    languages meaning (lefts.drop (lefts.length - commonLength lefts.reverse rights.reverse)) =
      languages meaning
        (rights.drop (rights.length - commonLength lefts.reverse rights.reverse)) := by
  have equal := take_commonLength meaning lefts.reverse rights.reverse
  rw [List.take_reverse, List.take_reverse, languages, languages, List.map_reverse,
    List.map_reverse] at equal
  exact List.reverse_injective equal

theorem language_split (regex : Regex) (count : Nat) :
    language meaning regex = (languages meaning (regex.factors.take count)).prod *
      (languages meaning (regex.factors.drop count)).prod := by
  rw [← List.prod_append, ← languages_append, List.take_append_drop, prod_factors]

theorem language_factorOut? {left right factored : Regex}
    (found : factorOut? left right = some factored) :
    language meaning factored = language meaning left + language meaning right := by
  unfold factorOut? at found
  dsimp only at found
  split at found
  case isTrue =>
    cases found
    rw [language_split left (commonLength left.factors right.factors),
      language_split right (commonLength left.factors right.factors), take_commonLength,
      ← mul_add, language_catAll, languages_append, List.prod_append, take_commonLength]
    simp [language_catAll]
  case isFalse =>
    split at found
    case isFalse => cases found
    case isTrue =>
      cases found
      rw [language_split left (left.factors.length -
          commonLength left.factors.reverse right.factors.reverse),
        language_split right (right.factors.length -
          commonLength left.factors.reverse right.factors.reverse), ← drop_commonLength,
        ← add_mul, language_catAll, languages_cons, List.prod_cons, language_alternative,
        language_catAll, language_catAll]

theorem language_simplifyAlternative (left right : Regex) :
    language meaning (simplifyAlternative left right) =
      language meaning left + language meaning right := by
  have whole : (languages meaning (absorbNil (distinctOperands left right))).sum =
      language meaning left + language meaning right := by
    rw [sum_absorbNil, sum_distinctOperands]
  rw [simplifyAlternative]
  split
  case h_2 => rw [language_altAll, whole]
  case h_1 first second operands =>
    rw [operands] at whole ⊢
    cases found : factorOut? first second with
    | none => rw [Option.getD_none, language_altAll, whole]
    | some factored =>
        rw [Option.getD_some, language_factorOut? found, ← whole]
        simp

/-! ## Stars -/

theorem languages_starBody {factors : List Regex} (all : factors.all isStar = true) :
    languages meaning factors =
      (languages meaning (factors.map starBody)).map fun factor => factor∗ := by
  rw [languages, languages, List.map_map, List.map_map]
  refine List.map_congr_left fun factor member => ?_
  rcases isStar_iff.mp (List.all_eq_true.mp all factor member) with ⟨body, rfl⟩
  exact language_star body

theorem language_simplifyStar (inner : Regex) :
    language meaning (simplifyStar inner) = (language meaning inner)∗ := by
  fun_cases simplifyStar inner with
  | case1 => rw [language_nil, language_empty, kstar_zero]
  | case2 => rw [language_nil, kstar_one]
  | case3 body => rw [language_star, kstar_idem]
  | case4 left right some =>
      rw [if_pos some, language_star, language_altAll, ← sum_operands (alternative left right),
        sum_withoutNil (any_isNil_iff.mp some), kstar_one_add]
  | case5 left right none => rw [if_neg none, language_star]
  | case6 first second all =>
      rw [if_pos all, language_star, language_altAll, ← prod_factors (sequence first second),
        languages_starBody all, kstar_prod_kstar]
  | case7 first second some => rw [if_neg some, language_star]
  | case8 => exact language_star _

/-! ## Passes -/

theorem language_simplifyOnce (regex : Regex) :
    language meaning (simplifyOnce regex) = language meaning regex := by
  induction regex with
  | sequence first second inFirst inSecond =>
      rw [simplifyOnce, language_simplifySequence, inFirst, inSecond, language_sequence]
  | alternative left right inLeft inRight =>
      rw [simplifyOnce, language_simplifyAlternative, inLeft, inRight, language_alternative]
  | star body inBody => rw [simplifyOnce, language_simplifyStar, inBody, language_star]
  | _ => rfl

theorem language_settle (passes : Nat) (regex : Regex) :
    language meaning (settle passes regex) = language meaning regex := by
  induction passes generalizing regex with
  | zero => rfl
  | succ passes induction =>
      rw [settle]
      split
      · rfl
      · rw [induction, language_simplifyOnce]

theorem language_simplify (regex : Regex) :
    language meaning regex.simplify = language meaning regex :=
  (language_settle passLimit _).trans (language_simplifyOnce regex)

theorem matches_simplify_iff {regex : Regex} {word : List α} :
    Matches meaning regex.simplify word ↔ Matches meaning regex word := by
  rw [← mem_language, language_simplify, mem_language]

end Regex

end FormalLanguages
