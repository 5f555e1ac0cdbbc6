import FormalLanguages.Proofs.Regex.CommonFactors
import FormalLanguages.Proofs.Regex.Matching
import FormalLanguages.Proofs.Regex.Nodes

namespace FormalLanguages.Regex

/-! # Expressions that match nothing

Simplifying removes every `∅`, unless `∅` is all that is left. Whether it is can be told from
the expression itself, without matching. -/

variable {regex first second left right : Regex} {regexes : List Regex}

/-! ## Expressions without `∅` -/

def EmptyFree (regex : Regex) : Prop := empty ∉ regex.nodes

theorem not_emptyFree_empty : ¬EmptyFree empty := fun free => free List.mem_cons_self

@[simp] theorem emptyFree_nil : EmptyFree nil := by simp [EmptyFree, nodes]

@[simp] theorem emptyFree_sequence :
    EmptyFree (sequence first second) ↔ EmptyFree first ∧ EmptyFree second := by
  simp [EmptyFree, nodes]

@[simp] theorem emptyFree_alternative :
    EmptyFree (alternative left right) ↔ EmptyFree left ∧ EmptyFree right := by
  simp [EmptyFree, nodes]

@[simp] theorem emptyFree_star : EmptyFree (star regex) ↔ EmptyFree regex := by
  simp [EmptyFree, nodes]

theorem isEmpty_eq_false_of_emptyFree (free : EmptyFree regex) : regex.isEmpty = false := by
  induction regex with
  | empty => exact absurd free not_emptyFree_empty
  | sequence first second inFirst inSecond =>
      rw [emptyFree_sequence] at free
      rw [isEmpty, inFirst free.1, inSecond free.2, Bool.or_false]
  | alternative left right inLeft inRight =>
      rw [emptyFree_alternative] at free
      rw [isEmpty, inLeft free.1, Bool.false_and]
  | _ => rfl

theorem emptyFree_factors :
    (∀ factor, factor ∈ regex.factors → EmptyFree factor) ↔ EmptyFree regex := by
  induction regex with
  | sequence first second inFirst inSecond =>
      rw [factors, List.forall_mem_append, inFirst, inSecond, emptyFree_sequence]
  | _ => exact List.forall_mem_singleton

theorem emptyFree_operands :
    (∀ operand, operand ∈ regex.operands → EmptyFree operand) ↔ EmptyFree regex := by
  induction regex with
  | alternative left right inLeft inRight =>
      rw [operands, List.forall_mem_append, inLeft, inRight, emptyFree_alternative]
  | _ => exact List.forall_mem_singleton

@[simp] theorem emptyFree_catAll :
    EmptyFree (catAll regexes) ↔ ∀ regex, regex ∈ regexes → EmptyFree regex := by
  fun_induction catAll regexes with
  | case1 => simp
  | case2 last => simp
  | case3 first next rest induction =>
      rw [emptyFree_sequence, induction, List.forall_mem_cons (a := first)]

theorem emptyFree_altAll (some : regexes ≠ []) :
    EmptyFree (altAll regexes) ↔ ∀ regex, regex ∈ regexes → EmptyFree regex := by
  rw [← emptyFree_operands, operands_altAll some, List.forall_mem_flatMap]
  exact forall₂_congr fun regex _ => emptyFree_operands

@[simp] theorem emptyFree_continued {tail : Option Regex} :
    EmptyFree (continued regex tail) ↔
      EmptyFree regex ∧ ∀ rest, tail = some rest → EmptyFree rest := by
  cases tail <;> simp [continued]

/-! ## The identities

Leaving `ε` out of the operands of an alternative below a star would bring `∅` back if there
were no others. There are some as long as no operand is there twice. -/

/-- Either nothing but `∅` is left, or nothing of `∅` and no operand twice. -/
def Cleared (regex : Regex) : Prop := regex = empty ∨ EmptyFree regex ∧ Apart regex.operands

theorem cleared_empty : Cleared empty := .inl rfl

theorem cleared_of_single (free : EmptyFree regex) (single : regex.operands = [regex]) :
    Cleared regex :=
  .inr ⟨free, single ▸ List.pairwise_singleton _ _⟩

theorem Cleared.emptyFree (cleared : Cleared regex) (some : regex ≠ empty) : EmptyFree regex :=
  (cleared.resolve_left some).1

theorem emptyFree_starThen {body next : Regex} (inBody : EmptyFree body)
    (inNext : EmptyFree next) : EmptyFree (starThen body next) := by
  rcases moved_starThen body next with ⟨head, tail, rfl, moved⟩
  generalize starThen body (continued head tail) = result at moved ⊢
  rcases emptyFree_continued.mp inNext with ⟨inHead, inTail⟩
  have inFactors := emptyFree_factors.mpr inBody
  cases moved with
  | stays => exact emptyFree_sequence.mpr ⟨emptyFree_star.mpr inBody, inNext⟩
  | behind => simpa [inHead, inBody] using inTail
  | @merged first inner rest listed _ starred =>
      rw [listed, List.forall_mem_cons] at inFactors
      rw [starred, emptyFree_star] at inHead
      simpa [inHead] using ⟨inFactors.2, inTail⟩
  | @rotated first rest listed =>
      rw [listed, List.forall_mem_cons] at inFactors
      have turned : ∀ factor, factor ∈ rest ++ [head] → EmptyFree factor :=
        List.forall_mem_append.mpr ⟨inFactors.2, List.forall_mem_singleton.mpr inHead⟩
      exact emptyFree_sequence.mpr ⟨inHead, emptyFree_continued.mpr
        ⟨emptyFree_star.mpr (emptyFree_catAll.mpr turned), inTail⟩⟩

theorem cleared_simplifySequence (inFirst : Cleared first) (inSecond : Cleared second) :
    Cleared (simplifySequence first second) := by
  fun_cases simplifySequence first second with
  | case1 => exact cleared_empty
  | case2 => exact cleared_empty
  | case3 => exact inSecond
  | case4 => exact inFirst
  | case5 first middle _ some =>
      have free := emptyFree_sequence.mp (inFirst.emptyFree (by simp))
      refine cleared_of_single ?_ rfl
      simp [free, inSecond.emptyFree some]
  | case6 body _ some =>
      have free := emptyFree_star.mp (inFirst.emptyFree (by simp))
      exact cleared_of_single (emptyFree_starThen free (inSecond.emptyFree some))
        (operands_starThen body second)
  | case7 _ _ someFirst someSecond =>
      refine cleared_of_single ?_ rfl
      simp [inFirst.emptyFree someFirst, inSecond.emptyFree someSecond]

theorem Cleared.emptyFree_of_mem_operands (cleared : Cleared regex) (operand : Regex)
    (member : operand ∈ regex.operands) (some : operand ≠ empty) : EmptyFree operand := by
  rcases cleared with rfl | ⟨free, -⟩
  · exact absurd (List.mem_singleton.mp member) some
  · exact emptyFree_operands.mpr free operand member

theorem emptyFree_absorbed (inLeft : Cleared left) (inRight : Cleared right) :
    ∀ operand, operand ∈ absorbNil (distinctOperands left right) → EmptyFree operand :=
  forall_absorbed inLeft.emptyFree_of_mem_operands inRight.emptyFree_of_mem_operands
    fun _ _ free => emptyFree_star.mpr (emptyFree_sequence.mp free).1

theorem single_absorbed (left right : Regex) :
    ∀ operand, operand ∈ absorbNil (distinctOperands left right) →
      operand.operands = [operand] :=
  forall_absorbed (fun _ inLeft _ => operands_of_mem_operands inLeft)
    (fun _ inRight _ => operands_of_mem_operands inRight) fun _ _ _ => rfl

theorem SharedFactors.cleared {factored : Regex} {shared matching leftOver rightOver : List Regex}
    (parts : SharedFactors first second factored shared matching leftOver rightOver)
    (inFirst : EmptyFree first) (inSecond : EmptyFree second) : Cleared factored := by
  rcases parts.exists_pieces with ⟨pieces, rfl, several, order⟩
  refine cleared_of_single ?_ (operands_catAll several)
  rw [← emptyFree_factors] at inFirst inSecond
  simp only [parts.firstParts.mem_iff, parts.secondParts.mem_iff, List.forall_mem_append]
    at inFirst inSecond
  simp only [emptyFree_catAll, order.mem_iff, List.forall_mem_cons, emptyFree_alternative]
  exact ⟨⟨inFirst.2, inSecond.2⟩, inFirst.1⟩

theorem cleared_simplifyAlternative (inLeft : Cleared left) (inRight : Cleared right) :
    Cleared (simplifyAlternative left right) := by
  have free := emptyFree_absorbed inLeft inRight
  rcases simplifyAlternative_cases left right with all | ⟨first, second, pair, found⟩
  · rw [all]
    rcases eq_or_ne (absorbNil (distinctOperands left right)) [] with none | some
    · exact .inl (congrArg altAll none)
    · refine .inr ⟨(emptyFree_altAll some).mpr free, ?_⟩
      rw [operands_altAll some, flatMap_eq_self (single_absorbed left right)]
      exact (absorbed_absorbNil _).apart (apart_distinctOperands left right)
  · rcases sharedFactors_of_factorOut? found with ⟨_, _, _, _, parts⟩
    rw [pair, List.forall_mem_cons, List.forall_mem_singleton] at free
    exact parts.cleared free.1 free.2

/-- As it has no operand twice, an alternative has one that is not `ε`. -/
theorem withoutNil_ne_nil (apart : Apart (alternative left right).operands) :
    withoutNil (alternative left right).operands ≠ [] := by
  intro none
  have allNil : ∀ operand, operand ∈ left.operands ++ right.operands → operand = nil := by
    intro operand member
    by_contra other
    exact List.not_mem_nil (none ▸ mem_withoutNil.mpr ⟨member, other⟩)
  rcases List.exists_mem_of_ne_nil _ (operands_ne_nil left) with ⟨before, inLeft⟩
  rcases List.exists_mem_of_ne_nil _ (operands_ne_nil right) with ⟨after, inRight⟩
  have different := (List.pairwise_append.mp apart).2.2 before inLeft after inRight
  rw [allNil before (List.mem_append_left _ inLeft),
    allNil after (List.mem_append_right _ inRight)] at different
  exact absurd different (by decide)

theorem emptyFree_starBody : EmptyFree (starBody regex) ↔ EmptyFree regex := by
  cases regex with
  | star body => exact emptyFree_star.symm
  | _ => rfl

theorem cleared_star (inBody : EmptyFree regex) : Cleared (star regex) :=
  cleared_of_single (emptyFree_star.mpr inBody) rfl

theorem cleared_simplifyStar {inner : Regex} (inInner : Cleared inner) :
    Cleared (simplifyStar inner) := by
  fun_cases simplifyStar inner with
  | case1 => exact cleared_of_single emptyFree_nil rfl
  | case2 => exact cleared_of_single emptyFree_nil rfl
  | case3 body => exact inInner
  | case4 left right some =>
      rcases inInner.resolve_left (by simp) with ⟨free, apart⟩
      rw [if_pos some]
      refine cleared_star ((emptyFree_altAll (withoutNil_ne_nil apart)).mpr ?_)
      exact fun operand member =>
        emptyFree_operands.mpr free operand (mem_withoutNil.mp member).1
  | case5 left right none => exact if_neg none ▸ cleared_star (inInner.emptyFree (by simp))
  | case6 first second all =>
      have free := emptyFree_factors.mpr (inInner.emptyFree (by simp))
      have some : (sequence first second).factors.map starBody ≠ [] :=
        mt List.map_eq_nil_iff.mp (factors_ne_nil _)
      rw [if_pos all]
      refine cleared_star ((emptyFree_altAll some).mpr (List.forall_mem_map.mpr ?_))
      exact fun factor member => emptyFree_starBody.mpr (free factor member)
  | case7 first second some => exact if_neg some ▸ cleared_star (inInner.emptyFree (by simp))
  | case8 _ notEmpty => exact cleared_star (inInner.emptyFree notEmpty)

/-! ## Passes -/

theorem cleared_simplifyOnce (regex : Regex) : Cleared (simplifyOnce regex) := by
  induction regex with
  | empty => exact cleared_empty
  | sequence first second inFirst inSecond => exact cleared_simplifySequence inFirst inSecond
  | alternative left right inLeft inRight => exact cleared_simplifyAlternative inLeft inRight
  | star body inBody => exact cleared_simplifyStar inBody
  | _ => exact cleared_of_single (by simp [EmptyFree, nodes, simplifyOnce]) rfl

theorem cleared_settle (passes : Nat) (cleared : Cleared regex) :
    Cleared (settle passes regex) := by
  induction passes generalizing regex with
  | zero => exact cleared
  | succ passes induction =>
      rw [settle]
      split
      · exact cleared
      · exact induction (cleared_simplifyOnce regex)

theorem cleared_simplify (regex : Regex) : Cleared regex.simplify :=
  cleared_settle passLimit (cleared_simplifyOnce regex)

/-! ## Words -/

/-- Where every name stands for something, only an empty expression has no word. -/
theorem exists_matches_iff {α : Type} {meaning : Meaning α}
    (symbols : ∀ name, ∃ word, meaning.symbol name word)
    (references : ∀ name, reference name ∈ regex.atoms → ∃ word, meaning.reference name word) :
    (∃ word, Matches meaning regex word) ↔ regex.isEmpty = false := by
  induction regex with
  | empty => exact iff_of_false (fun ⟨_, holds⟩ => nomatch holds) nofun
  | nil => exact iff_of_true ⟨[], .nil⟩ rfl
  | symbol name => exact iff_of_true ((symbols name).imp fun _ => .symbol) rfl
  | reference name =>
      exact iff_of_true ((references name List.mem_cons_self).imp fun _ => .reference) rfl
  | sequence first second inFirst inSecond =>
      rw [isEmpty, Bool.or_eq_false_iff,
        ← inFirst fun name member => references name (List.mem_append_left _ member),
        ← inSecond fun name member => references name (List.mem_append_right _ member)]
      constructor
      · rintro ⟨word, holds⟩
        rcases matches_sequence_iff.mp holds with ⟨before, after, left, right, -⟩
        exact ⟨⟨before, left⟩, after, right⟩
      · exact fun ⟨⟨before, left⟩, after, right⟩ => ⟨before ++ after, .sequence left right⟩
  | alternative left right inLeft inRight =>
      rw [isEmpty, Bool.and_eq_false_iff,
        ← inLeft fun name member => references name (List.mem_append_left _ member),
        ← inRight fun name member => references name (List.mem_append_right _ member),
        ← exists_or]
      exact exists_congr fun word => matches_alternative_iff
  | star body => exact iff_of_true ⟨[], .done⟩ rfl

theorem isEmpty_simplify (regex : Regex) : regex.simplify.isEmpty = regex.isEmpty := by
  have own (regex : Regex) : (∃ word, regex.MatchesSymbols word) ↔ regex.isEmpty = false :=
    exists_matches_iff (fun name => ⟨[name], rfl⟩) fun name _ => ⟨[name], rfl⟩
  rw [Bool.eq_iff_iff, ← not_iff_not, Bool.not_eq_true, Bool.not_eq_true, ← own, ← own]
  exact exists_congr fun word => matches_simplify_iff

theorem isEmpty_iff_test (closed : regex.references = []) :
    regex.isEmpty = true ↔ ∀ input, regex.test input = false := by
  have own : (∃ text, regex.MatchesText text) ↔ regex.isEmpty = false :=
    exists_matches_iff (fun name => ⟨name.toList, rfl⟩)
      fun name member => absurd member (references_eq_nil_iff.mp closed name)
  rw [← not_iff_not, Bool.not_eq_true, ← own, not_forall]
  simp only [Bool.not_eq_false, test_iff]
  exact ⟨fun ⟨text, holds⟩ => ⟨.ofList text, String.toList_ofList.symm ▸ holds⟩,
    fun ⟨input, holds⟩ => ⟨input.toList, holds⟩⟩

theorem simplify_eq_empty_iff : regex.simplify = empty ↔ regex.isEmpty = true := by
  rw [← isEmpty_simplify]
  constructor
  · exact fun equal => equal ▸ rfl
  · intro nothing
    refine (cleared_simplify regex).resolve_right fun ⟨free, _⟩ => ?_
    exact Bool.noConfusion (nothing.symm.trans (isEmpty_eq_false_of_emptyFree free))

/-- Simplifying comes to `∅` exactly for expressions that are empty, and leaves no `∅` at all in
others. Without references, the empty expressions are those of which every test fails. -/
theorem simplify_clears (regex : Regex) :
    (regex.simplify = empty ↔ regex.isEmpty = true) ∧
    (regex.simplify ≠ empty → empty ∉ regex.simplify.nodes) ∧
    (regex.references = [] → (regex.isEmpty = true ↔ ∀ input, regex.test input = false)) :=
  ⟨simplify_eq_empty_iff, (cleared_simplify regex).emptyFree, isEmpty_iff_test⟩

/-- `∅a + b*` -/
def besideEmpty : Regex := alternative (sequence empty (symbol "a")) (star (symbol "b"))

theorem besideEmpty_clears :
    besideEmpty.simplify = star (symbol "b") ∧ empty ∉ besideEmpty.simplify.nodes ∧
      besideEmpty.references = [] ∧ ∃ input, besideEmpty.test input = true := by
  have simplified : besideEmpty.simplify = star (symbol "b") := by decide
  rcases simplify_clears besideEmpty with ⟨-, cleared, tests⟩
  have some : ¬∀ input, besideEmpty.test input = false := mt (tests rfl).mpr (by decide)
  exact ⟨simplified, cleared (simplified ▸ nofun), rfl, by simpa using some⟩

end FormalLanguages.Regex
