namespace FormalLanguages

/-! Finite sets held as strictly ascending lists. Every set has one
representation, so two sets with the same members are equal, and everything that
walks over a set meets its members in ascending order. -/

def Ascending {α : Type} [Ord α] (values : List α) : Prop :=
  values.Pairwise fun left right => compare left right = .lt

theorem ascending_nil {α : Type} [Ord α] : Ascending ([] : List α) := .nil

structure SortedSet (α : Type) [Ord α] where
  toList : List α
  ascending : Ascending toList

namespace SortedSet

section Order

variable {α : Type} [Ord α]

def empty : SortedSet α := ⟨[], ascending_nil⟩

def singleton (value : α) : SortedSet α := ⟨[value], List.pairwise_singleton _ _⟩

instance : EmptyCollection (SortedSet α) := ⟨empty⟩

instance : Inhabited (SortedSet α) := ⟨empty⟩

instance : Membership α (SortedSet α) := ⟨fun members value => value ∈ members.toList⟩

theorem mem_toList {members : SortedSet α} {value : α} :
    value ∈ members.toList ↔ value ∈ members := Iff.rfl

@[simp] theorem not_mem_empty {value : α} : ¬ value ∈ (∅ : SortedSet α) := List.not_mem_nil

@[simp] theorem mem_singleton {value other : α} :
    value ∈ singleton other ↔ value = other := List.mem_singleton

instance [DecidableEq α] (value : α) (members : SortedSet α) : Decidable (value ∈ members) :=
  inferInstanceAs (Decidable (value ∈ members.toList))

instance [DecidableEq α] : DecidableEq (SortedSet α) := fun left right =>
  if same : left.toList = right.toList then
    isTrue (by cases left; cases right; cases same; rfl)
  else
    isFalse fun equal => same (equal ▸ rfl)

def isEmpty (members : SortedSet α) : Bool := members.toList.isEmpty

def size (members : SortedSet α) : Nat := members.toList.length

def any (members : SortedSet α) (test : α → Bool) : Bool := members.toList.any test

def all (members : SortedSet α) (test : α → Bool) : Bool := members.toList.all test

def filter (members : SortedSet α) (test : α → Bool) : SortedSet α :=
  ⟨members.toList.filter test, members.ascending.filter test⟩

@[simp] theorem mem_filter {members : SortedSet α} {test : α → Bool} {value : α} :
    value ∈ members.filter test ↔ value ∈ members ∧ test value = true := List.mem_filter

theorem isEmpty_iff {members : SortedSet α} :
    members.isEmpty = true ↔ ∀ value, ¬ value ∈ members := by
  rw [isEmpty, List.isEmpty_iff, List.eq_nil_iff_forall_not_mem]
  rfl

def insertAscending (value : α) : List α → List α
  | [] => [value]
  | head :: tail =>
      match compare value head with
      | .lt => value :: head :: tail
      | .eq => value :: tail
      | .gt => head :: insertAscending value tail

end Order

/-! The remaining operations build new orderings, which takes a comparison that
is transitive and that identifies equal values only. -/

section LawfulOrder

variable {α : Type} [Ord α] [Std.TransOrd α] [Std.LawfulEqOrd α]

omit [Std.TransOrd α] in
theorem mem_insertAscending {value other : α} {values : List α} :
    other ∈ insertAscending value values ↔ other = value ∨ other ∈ values := by
  induction values with
  | nil => simp [insertAscending]
  | cons head tail induction =>
      cases order : compare value head with
      | lt => simp [insertAscending, order]
      | eq =>
          have equal : value = head := Std.LawfulEqOrd.eq_of_compare order
          subst equal; simp [insertAscending]
      | gt =>
          simp only [insertAscending, order, List.mem_cons, induction]
          constructor <;> rintro (equal | equal | member) <;> simp [*]

theorem ascending_insertAscending {value : α} {values : List α} (sorted : Ascending values) :
    Ascending (insertAscending value values) := by
  induction values with
  | nil => exact List.pairwise_singleton _ _
  | cons head tail induction =>
      have headBefore : ∀ other, other ∈ tail → compare head other = .lt :=
        (List.pairwise_cons.mp sorted).1
      cases order : compare value head with
      | lt =>
          simp only [insertAscending, order]
          refine List.pairwise_cons.mpr ⟨fun other member => ?_, sorted⟩
          cases List.mem_cons.mp member with
          | inl equal => exact equal ▸ order
          | inr member => exact Std.TransCmp.lt_trans order (headBefore other member)
      | eq =>
          have equal : value = head := Std.LawfulEqOrd.eq_of_compare order
          subst equal
          simpa only [insertAscending, order] using sorted
      | gt =>
          simp only [insertAscending, order]
          refine List.pairwise_cons.mpr ⟨fun other member => ?_, induction sorted.of_cons⟩
          cases mem_insertAscending.mp member with
          | inl equal => exact equal ▸ Std.OrientedCmp.gt_iff_lt.mp order
          | inr member => exact headBefore other member

def insert (members : SortedSet α) (value : α) : SortedSet α :=
  ⟨insertAscending value members.toList, ascending_insertAscending members.ascending⟩

@[simp] theorem mem_insert {members : SortedSet α} {value other : α} :
    other ∈ members.insert value ↔ other = value ∨ other ∈ members := mem_insertAscending

def ofList (values : List α) : SortedSet α :=
  values.foldr (fun value members => members.insert value) ∅

@[simp] theorem mem_ofList {values : List α} {value : α} :
    value ∈ ofList values ↔ value ∈ values := by
  induction values with
  | nil => exact iff_of_false not_mem_empty List.not_mem_nil
  | cons head tail induction => rw [ofList, List.foldr_cons, mem_insert, List.mem_cons,
      ← induction, ofList]

omit [Std.LawfulEqOrd α] in
theorem not_before_itself {value : α} : compare value value ≠ .lt := by
  rw [Std.ReflOrd.compare_self]; decide

omit [Std.LawfulEqOrd α] in
theorem eq_of_ascending {left right : List α} (leftSorted : Ascending left)
    (rightSorted : Ascending right) (same : ∀ value, value ∈ left ↔ value ∈ right) :
    left = right := by
  induction left generalizing right with
  | nil =>
      exact (List.eq_nil_iff_forall_not_mem.mpr fun value member =>
        List.not_mem_nil ((same value).mpr member)).symm
  | cons head tail induction =>
      cases right with
      | nil => exact absurd ((same head).mp (List.mem_cons_self ..)) List.not_mem_nil
      | cons otherHead otherTail =>
          have headBefore : ∀ value, value ∈ tail → compare head value = .lt :=
            (List.pairwise_cons.mp leftSorted).1
          have otherBefore : ∀ value, value ∈ otherTail → compare otherHead value = .lt :=
            (List.pairwise_cons.mp rightSorted).1
          have heads : head = otherHead := by
            cases List.mem_cons.mp ((same head).mp (List.mem_cons_self ..)) with
            | inl equal => exact equal
            | inr member =>
                cases List.mem_cons.mp ((same otherHead).mpr (List.mem_cons_self ..)) with
                | inl equal => exact equal.symm
                | inr otherMember =>
                    exact absurd (Std.TransCmp.lt_trans (otherBefore head member)
                      (headBefore otherHead otherMember)) not_before_itself
          subst heads
          congr 1
          refine induction leftSorted.of_cons rightSorted.of_cons fun value => ?_
          constructor
          · intro member
            cases List.mem_cons.mp ((same value).mp (List.mem_cons_of_mem _ member)) with
            | inl equal => exact absurd (equal ▸ headBefore value member) not_before_itself
            | inr member => exact member
          · intro member
            cases List.mem_cons.mp ((same value).mpr (List.mem_cons_of_mem _ member)) with
            | inl equal => exact absurd (equal ▸ otherBefore value member) not_before_itself
            | inr member => exact member

omit [Std.LawfulEqOrd α] in
theorem ext {left right : SortedSet α} (same : ∀ value, value ∈ left ↔ value ∈ right) :
    left = right := by
  cases left
  cases right
  congr 1
  exact eq_of_ascending ‹_› ‹_› same

omit [Std.LawfulEqOrd α] in
theorem nodup_toList (members : SortedSet α) : members.toList.Nodup := by
  refine members.ascending.imp fun {left right} order equal => ?_
  exact absurd (equal ▸ order) not_before_itself

def union (left right : SortedSet α) : SortedSet α := ofList (left.toList ++ right.toList)

@[simp] theorem mem_union {left right : SortedSet α} {value : α} :
    value ∈ left.union right ↔ value ∈ left ∨ value ∈ right := by
  rw [union, mem_ofList, List.mem_append, mem_toList, mem_toList]

variable {β : Type} [Ord β]

def map (members : SortedSet β) (transform : β → α) : SortedSet α :=
  ofList (members.toList.map transform)

@[simp] theorem mem_map {members : SortedSet β} {transform : β → α} {value : α} :
    value ∈ members.map transform ↔ ∃ source, source ∈ members ∧ transform source = value := by
  rw [map, mem_ofList, List.mem_map]
  rfl

def flatMap (members : SortedSet β) (transform : β → List α) : SortedSet α :=
  ofList (members.toList.flatMap transform)

@[simp] theorem mem_flatMap {members : SortedSet β} {transform : β → List α} {value : α} :
    value ∈ members.flatMap transform ↔ ∃ source, source ∈ members ∧ value ∈ transform source := by
  rw [flatMap, mem_ofList, List.mem_flatMap]
  rfl

end LawfulOrder

end SortedSet

example : (SortedSet.ofList ["b", "a", "b"]).toList = ["a", "b"] := by decide

end FormalLanguages
