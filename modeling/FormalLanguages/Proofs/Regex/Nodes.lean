import FormalLanguages.Proofs.Regex.Atoms

namespace FormalLanguages.Regex

/-! # The nodes of an expression

The weight of an expression is the number of its nodes, with each name counted twice. -/

variable {regex left right : Regex} {regexes others : List Regex}

/-- All parts of an expression, the expression itself and its atoms included, each as often as
it occurs. -/
def nodes : Regex → List Regex
  | sequence first second => sequence first second :: (nodes first ++ nodes second)
  | alternative left right => alternative left right :: (nodes left ++ nodes right)
  | star body => star body :: nodes body
  | other => [other]

example : nodes (sequence nil (star empty)) = [sequence nil (star empty), nil, star empty, empty] :=
  rfl

def size (regex : Regex) : Nat := regex.nodes.length

@[simp] theorem size_sequence (first second : Regex) :
    (sequence first second).size = first.size + second.size + 1 := by
  simp [size, nodes]

@[simp] theorem size_alternative (left right : Regex) :
    (alternative left right).size = left.size + right.size + 1 := by
  simp [size, nodes]

@[simp] theorem size_star (body : Regex) : (star body).size = body.size + 1 := rfl

@[simp] theorem size_nil : nil.size = 1 := rfl

theorem size_pos (regex : Regex) : 0 < regex.size := by
  cases regex <;> exact Nat.succ_pos _

theorem size_add_length_atoms (regex : Regex) :
    regex.size + regex.atoms.length = regex.weight := by
  induction regex with
  | sequence first second inFirst inSecond =>
      rw [size_sequence, atoms, List.length_append, weight]
      omega
  | alternative left right inLeft inRight =>
      rw [size_alternative, atoms, List.length_append, weight]
      omega
  | star body inBody =>
      rw [size_star, atoms, weight]
      omega
  | _ => rfl

/-! ## Lists of expressions -/

def totalSize (regexes : List Regex) : Nat := (regexes.map fun regex => regex.size + 1).sum

@[simp] theorem totalSize_nil : totalSize [] = 0 := rfl

@[simp] theorem totalSize_cons (head : Regex) (tail : List Regex) :
    totalSize (head :: tail) = head.size + 1 + totalSize tail := rfl

@[simp] theorem totalSize_append (left right : List Regex) :
    totalSize (left ++ right) = totalSize left + totalSize right := by
  simp [totalSize]

theorem totalSize_eq_of_perm (order : regexes.Perm others) :
    totalSize regexes = totalSize others := (order.map _).sum_eq

theorem totalSize_le_of_sublist (sublist : regexes.Sublist others) :
    totalSize regexes ≤ totalSize others := (sublist.map _).sum_le_sum fun _ _ => Nat.zero_le _

theorem totalSize_add_length_atoms (regexes : List Regex) :
    totalSize regexes + (regexes.flatMap atoms).length = totalWeight regexes := by
  induction regexes with
  | nil => rfl
  | cons head tail induction =>
      have here := size_add_length_atoms head
      rw [totalSize_cons, List.flatMap_cons, List.length_append, totalWeight_cons]
      omega

theorem totalSize_factors (regex : Regex) : totalSize regex.factors = regex.size + 1 := by
  have whole := totalSize_add_length_atoms regex.factors
  rw [flatMap_factors, totalWeight_factors, ← size_add_length_atoms regex] at whole
  omega

theorem totalSize_operands (regex : Regex) : totalSize regex.operands = regex.size + 1 := by
  have whole := totalSize_add_length_atoms regex.operands
  rw [flatMap_operands, totalWeight_operands, ← size_add_length_atoms regex] at whole
  omega

theorem size_catAll (some : regexes ≠ []) : (catAll regexes).size + 1 = totalSize regexes := by
  have whole := weight_catAll some
  rw [← totalSize_add_length_atoms, ← size_add_length_atoms, atoms_catAll] at whole
  omega

theorem size_catAll_le (regexes : List Regex) :
    (catAll regexes).size ≤ totalSize regexes + 1 := by
  cases regexes with
  | nil => exact Nat.le_refl 1
  | cons head tail =>
      have whole := size_catAll (List.cons_ne_nil head tail)
      omega

theorem size_altAll (some : regexes ≠ []) : (altAll regexes).size + 1 = totalSize regexes := by
  have whole := weight_altAll some
  rw [← totalSize_add_length_atoms, ← size_add_length_atoms, atoms_altAll] at whole
  omega

theorem size_altAll_le {bound : Nat} (few : totalSize regexes ≤ bound + 1) (some : 0 < bound) :
    (altAll regexes).size ≤ bound := by
  cases regexes with
  | nil => exact some
  | cons head tail =>
      have whole := size_altAll (List.cons_ne_nil head tail)
      omega

/-! ## Expressions that are the same -/

theorem totalSize_eq_of_forall₂
    (matched : List.Forall₂ (fun here there => here.size = there.size) regexes others) :
    totalSize regexes = totalSize others := by
  induction matched with
  | nil => rfl
  | cons here _ induction => rw [totalSize_cons, totalSize_cons, here, induction]

theorem respects_size : Respects fun left right => left.size = right.size where
  empty := rfl
  nil := rfl
  symbol _ := rfl
  reference _ := rfl
  sequence inFirst inSecond := by rw [size_sequence, size_sequence, inFirst, inSecond]
  star inBody := congrArg (· + 1) inBody
  pairs {left right} := by
    rintro ⟨order, permuted, matched⟩
    have total := totalSize_eq_of_forall₂ matched
    rw [← totalSize_eq_of_perm permuted, totalSize_operands, totalSize_operands] at total
    exact Nat.succ.inj total

theorem size_eq_of_same (same : left.same right = true) : left.size = right.size :=
  respects_size.of_same same

end FormalLanguages.Regex
