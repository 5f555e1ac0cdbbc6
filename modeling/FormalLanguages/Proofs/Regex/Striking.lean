import FormalLanguages.Proofs.Regex.Measures
import Mathlib.Data.List.Perm.Basic

namespace FormalLanguages.Regex

/-! # What is struck off

Striking an expression off a list takes away operands that are the same as its own, in any
order. So all that holds of expressions part by part, whatever the order of operands is, holds
of expressions that are the same. -/

variable {left right : Regex} {others rest : List Regex}

theorem operands_eq_self_or (regex : Regex) :
    regex.operands = [regex] ∨ ∃ left right, regex = alternative left right := by
  cases regex with
  | alternative left right => exact .inr ⟨left, right, rfl⟩
  | _ => exact .inl rfl

theorem one_lt_length_operands (left right : Regex) :
    1 < (alternative left right).operands.length := by
  have someLeft := List.length_pos_iff.mpr (operands_ne_nil left)
  have someRight := List.length_pos_iff.mpr (operands_ne_nil right)
  rw [operands, List.length_append]
  omega

/-! ## Removing one expression after another -/

/-- A way to remove an expression that fits, if there is one. -/
structure Removes (remove : (Regex → Bool) → List Regex → Option (List Regex)) : Prop where
  found : ∀ {fitting others rest}, remove fitting others = some rest →
    ∃ other, fitting other = true ∧ others.Perm (other :: rest)
  missing : ∀ {fitting others}, remove fitting others = none →
    ∀ other, other ∈ others → fitting other = false

/-- Removes an expression that is the same for each of a list. -/
def removeEach (remove : (Regex → Bool) → List Regex → Option (List Regex)) :
    List Regex → List Regex → Option (List Regex)
  | [], others => some others
  | head :: tail, others => (remove head.same others).bind (removeEach remove tail)

theorem removeEach_append (remove : (Regex → Bool) → List Regex → Option (List Regex))
    (lefts rights others : List Regex) : removeEach remove (lefts ++ rights) others =
      (removeEach remove lefts others).bind (removeEach remove rights) := by
  induction lefts generalizing others with
  | nil => rfl
  | cons head tail induction =>
      rw [List.cons_append, removeEach, removeEach, Option.bind_assoc]
      exact congrArg _ (funext induction)

theorem Removes.pairs {remove : (Regex → Bool) → List Regex → Option (List Regex)}
    (removes : Removes remove) {lefts : List Regex}
    (found : removeEach remove lefts others = some rest) :
    ∃ struck, others.Perm (struck ++ rest) ∧
      List.Forall₂ (fun here there => here.same there = true) lefts struck := by
  induction lefts generalizing others with
  | nil =>
      cases found
      exact ⟨[], .refl _, .nil⟩
  | cons head tail induction =>
      rcases Option.bind_eq_some_iff.mp found with ⟨middle, first, later⟩
      rcases removes.found first with ⟨other, same, order⟩
      rcases induction later with ⟨struck, orderLater, matched⟩
      exact ⟨other :: struck, order.trans (orderLater.cons other), .cons same matched⟩

theorem removes_strikeFirst : Removes strikeFirst where
  found {fitting others rest} found := by
    induction others generalizing rest with
    | nil => cases found
    | cons head tail induction =>
        rw [strikeFirst] at found
        split at found
        case isTrue fits =>
          cases found
          exact ⟨head, fits, .refl _⟩
        case isFalse =>
          rcases Option.map_eq_some_iff.mp found with ⟨kept, later, rfl⟩
          rcases induction later with ⟨other, fits, order⟩
          exact ⟨other, fits, (order.cons head).trans (.swap other head kept)⟩
  missing {fitting others} missing := by
    induction others with
    | nil => exact fun _ member => absurd member List.not_mem_nil
    | cons head tail induction =>
        rw [strikeFirst] at missing
        split at missing
        case isTrue => cases missing
        case isFalse unfit =>
          have later := induction (Option.map_eq_none_iff.mp missing)
          exact List.forall_mem_cons.mpr ⟨Bool.eq_false_iff.mpr unfit, later⟩

/-! ## Operands in pairs -/

/-- Whether expressions that are no alternatives are put together in one way from parts that
are the same. -/
def fits : Regex → Regex → Bool
  | empty, empty => true
  | nil, nil => true
  | symbol name, symbol other => name = other
  | reference name, reference other => name = other
  | sequence first second, sequence otherFirst otherSecond =>
      first.same otherFirst && second.same otherSecond
  | star body, star other => body.same other
  | _, _ => false

theorem strike_of_single (single : left.operands = [left]) :
    strike left others = strikeFirst left.fits others := by
  cases left with
  | alternative first second =>
      exact absurd (congrArg List.length single) (one_lt_length_operands first second).ne'
  | _ => exact congrArg (strikeFirst · others) (funext fun other => by cases other <;> rfl)

theorem same_eq_fits (single : left.operands = [left]) (right : Regex) :
    left.same right = left.fits right := by
  rw [same, strike_of_single single]
  rcases operands_eq_self_or right with only | ⟨first, second, rfl⟩
  · rw [only, strikeFirst]
    cases left.fits right <;> rfl
  · have unfit : left.fits (alternative first second) = false := by cases left <;> rfl
    rw [unfit, Bool.eq_false_iff]
    intro all
    rcases (Option.any_eq_true _ _).mp all with ⟨rest, found, none⟩
    rcases removes_strikeFirst.found found with ⟨other, -, order⟩
    rw [List.isEmpty_iff.mp none] at order
    exact absurd order.length_eq (one_lt_length_operands first second).ne'

theorem strike_eq_removeEach_of_single (single : left.operands = [left]) :
    strike left others = removeEach strikeFirst [left] others := by
  rw [strike_of_single single, ← funext (same_eq_fits single)]
  exact (Option.bind_fun_some _).symm

theorem strike_eq_removeEach (regex : Regex) (others : List Regex) :
    strike regex others = removeEach strikeFirst regex.operands others := by
  induction regex generalizing others with
  | alternative left right inLeft inRight =>
      rw [operands, removeEach_append, ← inLeft, ← funext inRight]
      rfl
  | _ => exact strike_eq_removeEach_of_single rfl

/-- The operands of one expression are related to those of another, whatever their order is. -/
def Pairs (related : Regex → Regex → Prop) (left right : Regex) : Prop :=
  ∃ order, right.operands.Perm order ∧ List.Forall₂ related left.operands order

theorem pairs_of_same (same : left.same right = true) :
    Pairs (fun here there => here.same there = true) left right := by
  rcases (Option.any_eq_true _ _).mp same with ⟨rest, found, none⟩
  rw [strike_eq_removeEach, List.isEmpty_iff.mp none] at found
  rcases removes_strikeFirst.pairs found with ⟨order, permuted, matched⟩
  rw [List.append_nil] at permuted
  exact ⟨order, permuted, matched⟩

/-- A relation that holds of expressions part by part. -/
structure Respects (related : Regex → Regex → Prop) : Prop where
  empty : related empty empty
  nil : related nil nil
  symbol : ∀ name, related (symbol name) (symbol name)
  reference : ∀ name, related (reference name) (reference name)
  sequence : ∀ {first second otherFirst otherSecond}, related first otherFirst →
    related second otherSecond → related (sequence first second) (sequence otherFirst otherSecond)
  star : ∀ {body other}, related body other → related (star body) (star other)
  pairs : ∀ {left right}, Pairs related left right → related left right

namespace Respects

variable {related : Regex → Regex → Prop} (respects : Respects related)

include respects

theorem of_operands
    (inside : ∀ operand, operand ∈ left.operands → ∀ other, operand.same other = true →
      related operand other) (same : left.same right = true) : related left right := by
  rcases pairs_of_same same with ⟨order, permuted, matched⟩
  refine respects.pairs ⟨order, permuted, ?_⟩
  exact ((List.forall₂_and_left _ _).mpr ⟨inside, matched⟩).imp fun _ _ both => both.1 _ both.2

theorem of_mem_operands {operand other : Regex} (member : operand ∈ left.operands)
    (same : operand.same other = true) : related operand other := by
  induction left generalizing operand other with
  | alternative left right inLeft inRight =>
      exact (List.mem_append.mp member).elim (inLeft · same) (inRight · same)
  | sequence first second inFirst inSecond =>
      cases List.mem_singleton.mp member
      rw [same_eq_fits rfl] at same
      cases other <;> try cases same
      rcases Bool.and_eq_true_iff.mp same with ⟨sameFirst, sameSecond⟩
      exact respects.sequence
        (respects.of_operands (fun _ inside _ => inFirst inside) sameFirst)
        (respects.of_operands (fun _ inside _ => inSecond inside) sameSecond)
  | star body inBody =>
      cases List.mem_singleton.mp member
      rw [same_eq_fits rfl] at same
      cases other <;> try cases same
      exact respects.star (respects.of_operands (fun _ inside _ => inBody inside) same)
  | symbol name =>
      cases List.mem_singleton.mp member
      rw [same_eq_fits rfl] at same
      cases other <;> try cases same
      exact of_decide_eq_true same ▸ respects.symbol name
  | reference name =>
      cases List.mem_singleton.mp member
      rw [same_eq_fits rfl] at same
      cases other <;> try cases same
      exact of_decide_eq_true same ▸ respects.reference name
  | empty =>
      cases List.mem_singleton.mp member
      rw [same_eq_fits rfl] at same
      cases other <;> first | exact respects.empty | cases same
  | nil =>
      cases List.mem_singleton.mp member
      rw [same_eq_fits rfl] at same
      cases other <;> first | exact respects.nil | cases same

/-- What is the same is related. -/
theorem of_same (same : left.same right = true) : related left right :=
  respects.of_operands (fun _ member _ => respects.of_mem_operands member) same

end Respects

/-! ## What is measured -/

/-- Whatever is measured of two expressions is equal. -/
structure Matched (left right : Regex) : Prop where
  weight : left.weight = right.weight
  count : left.factors.length = right.factors.length
  disorder : left.disorder = right.disorder
  isStar : left.isStar = right.isStar

theorem Matched.symm (matched : Matched left right) : Matched right left :=
  ⟨matched.weight.symm, matched.count.symm, matched.disorder.symm, matched.isStar.symm⟩

theorem Matched.sequence {first second otherFirst otherSecond : Regex}
    (inFirst : Matched first otherFirst) (inSecond : Matched second otherSecond) :
    Matched (sequence first second) (sequence otherFirst otherSecond) where
  weight := by rw [Regex.weight, Regex.weight, inFirst.weight, inSecond.weight]
  count := by rw [factors, factors, List.length_append, List.length_append, inFirst.count,
    inSecond.count]
  disorder := by rw [Regex.disorder, Regex.disorder, inFirst.disorder, inFirst.weight,
    inSecond.disorder, inSecond.count]
  isStar := rfl

theorem Matched.starred {body other : Regex} (inBody : Matched body other) :
    Matched (star body) (star other) where
  weight := congrArg (· + 1) inBody.weight
  count := rfl
  disorder := inBody.disorder
  isStar := rfl

theorem totalWeight_eq_of_matched {lefts rights : List Regex}
    (matched : List.Forall₂ Matched lefts rights) : totalWeight lefts = totalWeight rights := by
  induction matched with
  | nil => rfl
  | cons here _ induction => rw [totalWeight_cons, totalWeight_cons, here.weight, induction]

theorem totalDisorder_eq_of_matched {lefts rights : List Regex}
    (matched : List.Forall₂ Matched lefts rights) : totalDisorder lefts = totalDisorder rights := by
  induction matched with
  | nil => rfl
  | cons here _ induction =>
      rw [totalDisorder, totalDisorder, List.map_cons, List.map_cons, List.sum_cons, List.sum_cons,
        here.disorder, ← totalDisorder, ← totalDisorder, induction]

/-- Operands that match, whatever their order is, make expressions that match. -/
theorem Matched.of_operands {struck : List Regex} (order : right.operands.Perm struck)
    (matched : List.Forall₂ Matched left.operands struck) : Matched left right := by
  have weight : left.weight + 1 = right.weight + 1 := by
    rw [← totalWeight_operands, ← totalWeight_operands, totalWeight_eq_of_matched matched,
      totalWeight_eq_of_perm order]
  have disorder : left.disorder = right.disorder := by
    rw [← totalDisorder_operands, ← totalDisorder_operands, totalDisorder_eq_of_matched matched]
    exact ((order.map _).sum_eq).symm
  have count : left.operands.length = right.operands.length :=
    matched.length_eq.trans order.length_eq.symm
  rcases operands_eq_self_or left with single | ⟨leftFirst, leftSecond, rfl⟩ <;>
    rcases operands_eq_self_or right with onlyRight | ⟨rightFirst, rightSecond, rfl⟩
  · rw [onlyRight] at order
    rw [single, List.perm_singleton.mp order.symm] at matched
    exact (List.forall₂_cons.mp matched).1
  · have many := one_lt_length_operands rightFirst rightSecond
    rw [← count, single] at many
    exact absurd many (Nat.lt_irrefl 1)
  · have many := one_lt_length_operands leftFirst leftSecond
    rw [count, onlyRight] at many
    exact absurd many (Nat.lt_irrefl 1)
  · exact ⟨Nat.succ.inj weight, rfl, disorder, rfl⟩

theorem respects_matched : Respects Matched where
  empty := ⟨rfl, rfl, rfl, rfl⟩
  nil := ⟨rfl, rfl, rfl, rfl⟩
  symbol _ := ⟨rfl, rfl, rfl, rfl⟩
  reference _ := ⟨rfl, rfl, rfl, rfl⟩
  sequence := Matched.sequence
  star := Matched.starred
  pairs := fun ⟨_, order, matched⟩ => .of_operands order matched

theorem matched_of_same (same : left.same right = true) : Matched left right :=
  respects_matched.of_same same

/-! ## Striking off in order

If the operands of one expression stand in front, in their order, then each of them is what
is struck off next. -/

/-- Striking `now` off takes away the operands of `before` that stand in front. -/
def Takes (now before : Regex) : Prop :=
  ∀ rest, strike now (before.operands ++ rest) = some rest

theorem Takes.same {now before : Regex} (takes : Takes now before) : now.same before = true := by
  have all := takes []
  rw [List.append_nil] at all
  rw [Regex.same, all]
  rfl

theorem strikeFirst_head {fits : Regex → Bool} {head : Regex} (fitting : fits head = true) :
    strikeFirst fits (head :: rest) = some rest := if_pos fitting

theorem takes_empty : Takes empty empty := fun _ => strikeFirst_head rfl

theorem takes_nil : Takes nil nil := fun _ => strikeFirst_head rfl

theorem takes_symbol (name : String) : Takes (symbol name) (symbol name) := fun _ =>
  strikeFirst_head (decide_eq_true rfl)

theorem takes_reference (name : String) : Takes (reference name) (reference name) := fun _ =>
  strikeFirst_head (decide_eq_true rfl)

theorem takes_sequence {first second otherFirst otherSecond : Regex}
    (inFirst : Takes first otherFirst) (inSecond : Takes second otherSecond) :
    Takes (sequence first second) (sequence otherFirst otherSecond) := fun _ =>
  strikeFirst_head (Bool.and_eq_true_iff.mpr ⟨inFirst.same, inSecond.same⟩)

theorem takes_star {body other : Regex} (inBody : Takes body other) :
    Takes (star body) (star other) := fun _ => strikeFirst_head inBody.same

theorem takes_alternative {left right otherLeft otherRight : Regex} (inLeft : Takes left otherLeft)
    (inRight : Takes right otherRight) :
    Takes (alternative left right) (alternative otherLeft otherRight) := by
  intro rest
  rw [operands, List.append_assoc]
  exact (congrArg (·.bind right.strike) (inLeft _)).trans (inRight rest)

theorem takes_self (regex : Regex) : Takes regex regex := by
  induction regex with
  | empty => exact takes_empty
  | nil => exact takes_nil
  | symbol name => exact takes_symbol name
  | reference name => exact takes_reference name
  | sequence first second inFirst inSecond => exact takes_sequence inFirst inSecond
  | alternative left right inLeft inRight => exact takes_alternative inLeft inRight
  | star body inBody => exact takes_star inBody

theorem takes_altAll {left right otherLeft otherRight : Regex} (inLeft : Takes left otherLeft)
    (inRight : Takes right otherRight) :
    Takes (altAll (left.operands ++ right.operands)) (alternative otherLeft otherRight) := by
  intro rest
  have single : ∀ regex, regex ∈ left.operands ++ right.operands → regex.operands = [regex] :=
    fun regex member => (List.mem_append.mp member).elim operands_of_mem_operands
      operands_of_mem_operands
  have whole : strike (altAll (left.operands ++ right.operands)) =
      strike (alternative left right) := by
    funext others
    rw [strike_eq_removeEach, operands_altAll (by simp [operands_ne_nil]), flatMap_eq_self single,
      strike_eq_removeEach, operands]
  rw [whole, takes_alternative inLeft inRight]

end FormalLanguages.Regex
