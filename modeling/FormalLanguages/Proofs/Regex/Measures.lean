import FormalLanguages.Regex.Simplification
import Mathlib.Algebra.BigOperators.Group.List.Basic
import Mathlib.Tactic.Ring

namespace FormalLanguages.Regex

/-! # The weight and the disorder of an expression

What a pass makes of an expression is never heavier. Where it is not lighter either, the
factors of sequences have come closer to the order that the identities aim at. -/

variable {regex : Regex} {regexes : List Regex}

/-- Names weigh more than `∅` and `ε`, so that `a + ab` is heavier than `a(ε + b)`. -/
@[simp] def weight : Regex → Nat
  | empty => 1
  | nil => 1
  | symbol _ => 2
  | reference _ => 2
  | sequence first second => weight first + weight second + 1
  | alternative left right => weight left + weight right + 1
  | star body => weight body + 1

/-- Every expression in front of others counts with its weight once for each of them. Less is
counted if sequences nest to the right, and if what is heavy comes late. -/
@[simp] def disorder : Regex → Nat
  | sequence first second => disorder first + disorder second + weight first * second.factors.length
  | alternative left right => disorder left + disorder right
  | star body => disorder body
  | _ => 0

theorem weight_pos (regex : Regex) : 0 < regex.weight := by
  cases regex <;> simp

theorem weight_eq_one_iff : regex.weight = 1 ↔ regex = empty ∨ regex = nil := by
  cases regex with
  | sequence first second => simp [Nat.ne_of_gt (weight_pos first)]
  | alternative left right => simp [Nat.ne_of_gt (weight_pos left)]
  | star body => simp [Nat.ne_of_gt (weight_pos body)]
  | _ => simp

theorem one_lt_weight (notEmpty : regex ≠ empty) (notNil : regex ≠ nil) : 1 < regex.weight :=
  (Nat.succ_le_of_lt (weight_pos regex)).lt_of_ne'
    fun one => (weight_eq_one_iff.mp one).elim notEmpty notNil

theorem one_lt_weight_of_isStar (starred : regex.isStar = true) : 1 < regex.weight :=
  one_lt_weight (fun equal => nomatch equal ▸ starred) (fun equal => nomatch equal ▸ starred)

theorem one_lt_weight_sequence (first second : Regex) : 1 < (sequence first second).weight :=
  Nat.lt_add_of_pos_left (Nat.add_pos_left (weight_pos first) second.weight)

theorem one_lt_weight_alternative (left right : Regex) : 1 < (alternative left right).weight :=
  Nat.lt_add_of_pos_left (Nat.add_pos_left (weight_pos left) right.weight)

/-! ## Lists of expressions

An expression weighs as much as its factors or its operands, with one for each place
between two of them. -/

def totalWeight (regexes : List Regex) : Nat := (regexes.map fun regex => regex.weight + 1).sum

@[simp] theorem totalWeight_nil : totalWeight [] = 0 := rfl

@[simp] theorem totalWeight_cons (head : Regex) (tail : List Regex) :
    totalWeight (head :: tail) = head.weight + 1 + totalWeight tail := rfl

@[simp] theorem totalWeight_append (left right : List Regex) :
    totalWeight (left ++ right) = totalWeight left + totalWeight right := by
  simp [totalWeight]

theorem totalWeight_eq_of_perm {others : List Regex} (order : regexes.Perm others) :
    totalWeight regexes = totalWeight others := (order.map _).sum_eq

theorem totalWeight_factors (regex : Regex) : totalWeight regex.factors = regex.weight + 1 := by
  induction regex with
  | sequence first second inFirst inSecond =>
      rw [factors, totalWeight_append, inFirst, inSecond, weight]
      omega
  | _ => rfl

theorem totalWeight_operands (regex : Regex) : totalWeight regex.operands = regex.weight + 1 := by
  induction regex with
  | alternative left right inLeft inRight =>
      rw [operands, totalWeight_append, inLeft, inRight, weight]
      omega
  | _ => rfl

theorem weight_catAll (some : regexes ≠ []) :
    (catAll regexes).weight + 1 = totalWeight regexes := by
  fun_induction catAll regexes with
  | case1 => exact absurd rfl some
  | case2 last => rfl
  | case3 first next rest induction =>
      rw [weight, totalWeight_cons first, ← induction (List.cons_ne_nil _ _)]
      omega

theorem weight_catAll_le (regexes : List Regex) :
    (catAll regexes).weight ≤ totalWeight regexes + 1 := by
  cases regexes with
  | nil => exact Nat.le_refl 1
  | cons head tail =>
      have whole := weight_catAll (List.cons_ne_nil head tail)
      omega

theorem weight_foldl_alternative (first : Regex) (rest : List Regex) :
    (rest.foldl alternative first).weight = first.weight + totalWeight rest := by
  induction rest generalizing first with
  | nil => rfl
  | cons next rest induction =>
      rw [List.foldl_cons, induction, weight, totalWeight_cons]
      omega

theorem weight_altAll (some : regexes ≠ []) :
    (altAll regexes).weight + 1 = totalWeight regexes := by
  cases regexes with
  | nil => exact absurd rfl some
  | cons first rest =>
      rw [altAll, weight_foldl_alternative, totalWeight_cons]
      omega

theorem weight_altAll_lt {bound : Nat} (lighter : totalWeight regexes ≤ bound) (some : 1 < bound) :
    (altAll regexes).weight < bound := by
  cases regexes with
  | nil => exact some
  | cons head tail =>
      have whole := weight_altAll (List.cons_ne_nil head tail)
      omega

/-! ## Factors and operands -/

theorem factors_ne_nil (regex : Regex) : regex.factors ≠ [] := by
  cases regex with
  | sequence first second => simp [factors, factors_ne_nil first]
  | _ => exact List.cons_ne_nil _ _

theorem length_factors_pos (regex : Regex) : 0 < regex.factors.length :=
  List.length_pos_iff.mpr (factors_ne_nil regex)

theorem operands_ne_nil (regex : Regex) : regex.operands ≠ [] := by
  cases regex with
  | alternative left right => simp [operands, operands_ne_nil left]
  | _ => exact List.cons_ne_nil _ _

theorem factors_of_mem_factors {factor : Regex} (member : factor ∈ regex.factors) :
    factor.factors = [factor] := by
  induction regex with
  | sequence first second inFirst inSecond =>
      exact (List.mem_append.mp member).elim inFirst inSecond
  | _ =>
      cases List.mem_singleton.mp member
      rfl

theorem operands_of_mem_operands {operand : Regex} (member : operand ∈ regex.operands) :
    operand.operands = [operand] := by
  induction regex with
  | alternative left right inLeft inRight =>
      exact (List.mem_append.mp member).elim inLeft inRight
  | _ =>
      cases List.mem_singleton.mp member
      rfl

theorem operands_foldl_alternative (first : Regex) (rest : List Regex) :
    (rest.foldl alternative first).operands = first.operands ++ rest.flatMap operands := by
  induction rest generalizing first with
  | nil => exact (List.append_nil _).symm
  | cons next rest induction =>
      rw [List.foldl_cons, induction, operands, List.flatMap_cons, List.append_assoc]

theorem operands_altAll (some : regexes ≠ []) :
    (altAll regexes).operands = regexes.flatMap operands := by
  cases regexes with
  | nil => exact absurd rfl some
  | cons first rest => exact operands_foldl_alternative first rest

theorem factors_catAll (some : regexes ≠ []) :
    (catAll regexes).factors = regexes.flatMap factors := by
  fun_induction catAll regexes with
  | case1 => exact absurd rfl some
  | case2 last => simp
  | case3 first next rest induction =>
      rw [factors, induction (List.cons_ne_nil _ _), List.flatMap_cons (x := first)]

/-- Where no item is made of several parts, putting all parts together changes nothing. -/
theorem flatMap_eq_self {parts : Regex → List Regex}
    (single : ∀ regex, regex ∈ regexes → parts regex = [regex]) :
    regexes.flatMap parts = regexes := by
  rw [List.flatMap_congr single, List.flatMap_singleton']

/-! ## The disorder of lists -/

def totalDisorder (regexes : List Regex) : Nat := (regexes.map disorder).sum

@[simp] theorem totalDisorder_append (left right : List Regex) :
    totalDisorder (left ++ right) = totalDisorder left + totalDisorder right := by
  simp [totalDisorder]

theorem totalDisorder_operands (regex : Regex) :
    totalDisorder regex.operands = regex.disorder := by
  induction regex with
  | alternative left right inLeft inRight =>
      rw [operands, totalDisorder_append, inLeft, inRight, disorder]
  | _ => rfl

/-- The disorder of a sequence that nests to the right. -/
def spread : List Regex → Nat
  | [] => 0
  | head :: tail => head.disorder + head.weight * tail.length + spread tail

@[simp] theorem spread_cons (head : Regex) (tail : List Regex) :
    spread (head :: tail) = head.disorder + head.weight * tail.length + spread tail := rfl

def plainWeight (regexes : List Regex) : Nat := (regexes.map weight).sum

@[simp] theorem plainWeight_cons (head : Regex) (tail : List Regex) :
    plainWeight (head :: tail) = head.weight + plainWeight tail := rfl

theorem plainWeight_add_length (regexes : List Regex) :
    plainWeight regexes + regexes.length = totalWeight regexes := by
  simp [plainWeight, totalWeight, List.sum_map_add]

theorem spread_append (left right : List Regex) :
    spread (left ++ right) = spread left + spread right + plainWeight left * right.length := by
  induction left with
  | nil => simp [spread, plainWeight]
  | cons head tail induction =>
      rw [List.cons_append, spread_cons, spread_cons, induction, plainWeight_cons,
        List.length_append]
      ring

theorem disorder_catAll (flat : ∀ regex, regex ∈ regexes → regex.factors = [regex]) :
    (catAll regexes).disorder = spread regexes := by
  fun_induction catAll regexes with
  | case1 => rfl
  | case2 last => simp [spread]
  | case3 first next rest induction =>
      have inRest : ∀ regex, regex ∈ next :: rest → regex.factors = [regex] :=
        fun regex member => flat regex (List.mem_cons_of_mem _ member)
      rw [disorder, induction inRest, factors_catAll (List.cons_ne_nil _ _),
        flatMap_eq_self inRest, spread_cons first]
      omega

theorem spread_factors_le (regex : Regex) : spread regex.factors ≤ regex.disorder := by
  induction regex with
  | sequence first second inFirst inSecond =>
      have lighter : plainWeight first.factors ≤ first.weight := by
        have whole := plainWeight_add_length first.factors
        have some := length_factors_pos first
        rw [totalWeight_factors] at whole
        omega
      rw [factors, spread_append, disorder]
      exact Nat.add_le_add (Nat.add_le_add inFirst inSecond) (Nat.mul_le_mul_right _ lighter)
  | _ => simp [factors, spread]

end FormalLanguages.Regex
