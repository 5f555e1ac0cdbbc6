import FormalLanguages.Proofs.Regex.Simplification

namespace FormalLanguages.Regex

/-! # What expressions are made of

Symbols and references are the atoms of an expression. Simplifying may drop atoms and
repeat them, but it brings in none that were not there. -/

@[simp] def atoms : Regex → List Regex
  | empty => []
  | nil => []
  | symbol name => [symbol name]
  | reference name => [reference name]
  | sequence first second => atoms first ++ atoms second
  | alternative left right => atoms left ++ atoms right
  | star body => atoms body

def reference? : Regex → Option String
  | reference name => some name
  | _ => none

def references (regex : Regex) : List String := regex.atoms.filterMap reference?

example : references (sequence (symbol "x") (star (reference "y"))) = ["y"] := rfl

theorem mem_references {regex : Regex} {name : String} :
    name ∈ regex.references ↔ reference name ∈ regex.atoms := by
  rw [references, List.mem_filterMap]
  constructor
  · rintro ⟨atom, member, found⟩
    cases atom <;> cases found
    exact member
  · exact fun member => ⟨reference name, member, rfl⟩

theorem references_eq_nil_iff {regex : Regex} :
    regex.references = [] ↔ ∀ name, reference name ∉ regex.atoms := by
  simp only [List.eq_nil_iff_forall_not_mem, mem_references]

/-! ## Operands -/

@[simp] theorem atoms_catAll (regexes : List Regex) :
    (catAll regexes).atoms = regexes.flatMap atoms := by
  fun_induction catAll regexes with
  | case1 => rfl
  | case2 last => simp
  | case3 first next rest induction => rw [atoms, induction, List.flatMap_cons (x := first)]

theorem atoms_foldl_alternative (first : Regex) (rest : List Regex) :
    (rest.foldl alternative first).atoms = first.atoms ++ rest.flatMap atoms := by
  induction rest generalizing first with
  | nil => simp
  | cons next rest induction =>
      rw [List.foldl_cons, induction, atoms, List.flatMap_cons, List.append_assoc]

@[simp] theorem atoms_altAll (regexes : List Regex) :
    (altAll regexes).atoms = regexes.flatMap atoms := by
  cases regexes with
  | nil => rfl
  | cons first rest => exact atoms_foldl_alternative first rest

theorem flatMap_factors (regex : Regex) : regex.factors.flatMap atoms = regex.atoms := by
  induction regex with
  | sequence first second inFirst inSecond =>
      rw [factors, List.flatMap_append, inFirst, inSecond, atoms]
  | _ => simp [factors]

theorem flatMap_operands (regex : Regex) : regex.operands.flatMap atoms = regex.atoms := by
  induction regex with
  | alternative left right inLeft inRight =>
      rw [operands, List.flatMap_append, inLeft, inRight, atoms]
  | _ => simp [operands]

theorem flatMap_atoms_subset {regexes others : List Regex} (subset : regexes ⊆ others) :
    regexes.flatMap atoms ⊆ others.flatMap atoms := by
  intro atom
  simp only [List.mem_flatMap]
  rintro ⟨regex, member, inside⟩
  exact ⟨regex, subset member, inside⟩

theorem append_subset_append {lefts rights otherLefts otherRights : List Regex}
    (left : lefts ⊆ otherLefts) (right : rights ⊆ otherRights) :
    lefts ++ rights ⊆ otherLefts ++ otherRights :=
  List.append_subset_of_subset_of_subset (List.subset_append_of_subset_left _ left)
    (List.subset_append_of_subset_right _ right)

/-! ## Sequences -/

def tailAtoms (tail : Option Regex) : List Regex := tail.toList.flatMap atoms

@[simp] theorem atoms_continued (regex : Regex) (tail : Option Regex) :
    (continued regex tail).atoms = regex.atoms ++ tailAtoms tail := by
  cases tail <;> simp [continued, tailAtoms]

theorem atoms_of_splitHead {regex head : Regex} {tail : Option Regex}
    (parts : splitHead regex = (head, tail)) : regex.atoms = head.atoms ++ tailAtoms tail := by
  cases regex <;> cases parts <;> simp [tailAtoms]

theorem atoms_of_factors {regex first : Regex} {rest : List Regex}
    (parts : regex.factors = first :: rest) :
    regex.atoms = first.atoms ++ rest.flatMap atoms := by
  rw [← flatMap_factors, parts, List.flatMap_cons]

theorem atoms_starThen (body next : Regex) :
    (starThen body next).atoms ⊆ body.atoms ++ next.atoms := by
  rw [starThen]
  rcases parts : splitHead next with ⟨head, tail⟩
  have unchanged : (sequence (star body) next).atoms ⊆ body.atoms ++ next.atoms :=
    List.Subset.refl _
  rw [atoms_of_splitHead parts] at unchanged ⊢
  dsimp only
  split
  case isTrue =>
    intro atom
    simp only [atoms, atoms_continued, List.mem_append]
    tauto
  case isFalse =>
    split
    case h_2 => exact unchanged
    case h_1 =>
      split
      case h_1 => exact unchanged
      case h_2 first rest listed =>
        split
        case isFalse => exact unchanged
        case isTrue =>
          rw [atoms_of_factors listed]
          split <;> intro atom <;>
            simp only [atoms, atoms_continued, atoms_catAll, List.flatMap_append,
              List.flatMap_singleton, List.mem_append] <;> tauto

theorem atoms_simplifySequence (first second : Regex) :
    (simplifySequence first second).atoms ⊆ first.atoms ++ second.atoms := by
  fun_cases simplifySequence first second with
  | case1 => exact List.nil_subset _
  | case2 => exact List.nil_subset _
  | case3 => exact List.subset_append_right _ _
  | case4 => exact List.subset_append_left _ _
  | case5 => simp only [atoms, List.append_assoc, List.Subset.refl]
  | case6 body => exact atoms_starThen body second
  | case7 => exact List.Subset.refl _

/-! ## Alternatives -/

theorem addOperand_subset (known : List Regex) (operand : Regex) :
    addOperand known operand ⊆ known ++ [operand] := by
  rw [addOperand]
  split
  · exact List.subset_append_left _ _
  · exact List.Subset.refl _

theorem foldl_addOperand_subset (operands known : List Regex) :
    operands.foldl addOperand known ⊆ known ++ operands := by
  induction operands generalizing known with
  | nil => simp
  | cons operand rest induction =>
      rw [List.foldl_cons, List.append_cons]
      exact List.Subset.trans (induction _)
        (append_subset_append (addOperand_subset known operand) (List.Subset.refl _))

theorem atoms_distinctOperands (left right : Regex) :
    (distinctOperands left right).flatMap atoms ⊆ left.atoms ++ right.atoms := by
  rw [← flatMap_operands left, ← flatMap_operands right, ← List.flatMap_append]
  exact flatMap_atoms_subset (foldl_addOperand_subset _ [])

theorem atoms_withoutNil (operands : List Regex) :
    (withoutNil operands).flatMap atoms ⊆ operands.flatMap atoms :=
  flatMap_atoms_subset (List.filter_subset_self _)

theorem atoms_starFirstPlus {operands starred : List Regex}
    (found : starFirstPlus operands = some starred) :
    starred.flatMap atoms ⊆ operands.flatMap atoms := by
  induction operands generalizing starred with
  | nil => cases found
  | cons head tail induction =>
      rw [starFirstPlus] at found
      split at found
      case h_1 body plus =>
        cases found
        rcases plusBody?_eq_some plus with ⟨inner, rfl, _⟩
        intro atom
        simp only [List.flatMap_cons, atoms, List.mem_append]
        tauto
      case h_2 =>
        rcases Option.map_eq_some_iff.mp found with ⟨rest, later, rfl⟩
        rw [List.flatMap_cons, List.flatMap_cons]
        exact append_subset_append (List.Subset.refl _) (induction later)

theorem atoms_absorbNil (operands : List Regex) :
    (absorbNil operands).flatMap atoms ⊆ operands.flatMap atoms := by
  rw [absorbNil]
  split
  case isFalse => exact List.Subset.refl _
  case isTrue =>
    split
    case isTrue => exact atoms_withoutNil operands
    case isFalse =>
      split
      case h_2 => exact List.Subset.refl _
      case h_1 starred found =>
        exact List.Subset.trans (atoms_withoutNil starred) (atoms_starFirstPlus found)

theorem atoms_factorOut? {left right factored : Regex}
    (found : factorOut? left right = some factored) :
    factored.atoms ⊆ left.atoms ++ right.atoms := by
  have pieces (regex : Regex) (count : Nat) : regex.atoms =
      (regex.factors.take count).flatMap atoms ++ (regex.factors.drop count).flatMap atoms := by
    rw [← List.flatMap_append, List.take_append_drop, flatMap_factors]
  unfold factorOut? at found
  dsimp only at found
  split at found
  case isTrue =>
    cases found
    rw [pieces left (commonLength left.factors right.factors),
      pieces right (commonLength left.factors right.factors)]
    intro atom
    simp only [atoms, atoms_catAll, List.flatMap_append, List.flatMap_singleton, List.mem_append]
    tauto
  case isFalse =>
    split at found
    case isFalse => cases found
    case isTrue =>
      cases found
      rw [pieces left (left.factors.length -
          commonLength left.factors.reverse right.factors.reverse),
        pieces right (right.factors.length -
          commonLength left.factors.reverse right.factors.reverse)]
      intro atom
      simp only [atoms, atoms_catAll, List.flatMap_cons, List.mem_append]
      tauto

theorem atoms_simplifyAlternative (left right : Regex) :
    (simplifyAlternative left right).atoms ⊆ left.atoms ++ right.atoms := by
  have whole := List.Subset.trans (atoms_absorbNil (distinctOperands left right))
    (atoms_distinctOperands left right)
  rw [simplifyAlternative]
  split
  case h_2 => rwa [atoms_altAll]
  case h_1 first second operands =>
    rw [operands] at whole ⊢
    cases found : factorOut? first second with
    | none => rwa [Option.getD_none, atoms_altAll]
    | some factored =>
        apply List.Subset.trans (atoms_factorOut? found)
        simpa using whole

/-! ## Stars and passes -/

theorem atoms_starBody (factor : Regex) : (starBody factor).atoms = factor.atoms := by
  cases factor <;> rfl

theorem atoms_simplifyStar (inner : Regex) : (simplifyStar inner).atoms ⊆ inner.atoms := by
  fun_cases simplifyStar inner with
  | case1 => exact List.Subset.refl _
  | case2 => exact List.Subset.refl _
  | case3 => exact List.Subset.refl _
  | case4 left right some =>
      rw [if_pos some, ← flatMap_operands (alternative left right)]
      exact (atoms_altAll _).symm ▸ atoms_withoutNil _
  | case5 left right none =>
      rw [if_neg none]
      exact List.Subset.refl _
  | case6 first second all =>
      rw [if_pos all, ← flatMap_factors (sequence first second)]
      change (altAll _).atoms ⊆ _
      simp only [atoms_altAll, List.flatMap_map, atoms_starBody, List.Subset.refl]
  | case7 first second some =>
      rw [if_neg some]
      exact List.Subset.refl _
  | case8 => exact List.Subset.refl _

theorem atoms_simplifyOnce (regex : Regex) : (simplifyOnce regex).atoms ⊆ regex.atoms := by
  induction regex with
  | sequence first second inFirst inSecond =>
      exact List.Subset.trans (atoms_simplifySequence _ _) (append_subset_append inFirst inSecond)
  | alternative left right inLeft inRight =>
      exact List.Subset.trans (atoms_simplifyAlternative _ _) (append_subset_append inLeft inRight)
  | star body inBody => exact List.Subset.trans (atoms_simplifyStar _) inBody
  | _ => exact List.Subset.refl _

theorem atoms_settle (passes : Nat) (regex : Regex) :
    (settle passes regex).atoms ⊆ regex.atoms := by
  induction passes generalizing regex with
  | zero => exact List.Subset.refl _
  | succ passes induction =>
      rw [settle]
      split
      · exact List.Subset.refl _
      · exact List.Subset.trans (induction _) (atoms_simplifyOnce regex)

theorem atoms_simplify (regex : Regex) : regex.simplify.atoms ⊆ regex.atoms :=
  List.Subset.trans (atoms_settle passLimit _) (atoms_simplifyOnce regex)

theorem references_simplify {regex : Regex} (closed : regex.references = []) :
    regex.simplify.references = [] :=
  references_eq_nil_iff.mpr fun name member =>
    references_eq_nil_iff.mp closed name (atoms_simplify regex member)

end FormalLanguages.Regex
