namespace FormalLanguages

/-! Parts of a list, given by where they start and how long they are. -/

variable {α : Type} {items left right : List α} {start length : Nat}

def part (items : List α) (start length : Nat) : List α := (items.drop start).take length

@[simp] theorem part_zero : part items start 0 = [] := List.take_zero

theorem part_whole : part items 0 items.length = items := List.take_length

theorem part_add (first second : Nat) :
    part items start (first + second) =
      part items start first ++ part items (start + first) second := by
  rw [part, List.take_add, List.drop_drop]
  rfl

theorem length_part (within : start + length ≤ items.length) :
    (part items start length).length = length := by
  rw [part, List.length_take, List.length_drop]
  omega

theorem part_ne_nil (filled : 1 ≤ length) (within : start + length ≤ items.length) :
    part items start length ≠ [] := by
  intro none
  have size := length_part within
  rw [none] at size
  cases size
  cases filled

theorem part_one_iff {item : α} : part items start 1 = [item] ↔ items[start]? = some item := by
  rw [part, List.getElem?_eq_some_iff]
  constructor
  · intro same
    have inside : start < items.length := by
      apply Classical.byContradiction
      intro beyond
      rw [List.drop_eq_nil_of_le (Nat.le_of_not_lt beyond)] at same
      cases same
    rw [List.drop_eq_getElem_cons inside] at same
    exact ⟨inside, (List.cons.inj same).1⟩
  · intro found
    rcases found with ⟨inside, rfl⟩
    rw [List.drop_eq_getElem_cons inside]
    rfl

theorem part_eq_append (within : start + length ≤ items.length)
    (same : part items start length = left ++ right) :
    left.length ≤ length ∧ left = part items start left.length ∧
      right = part items (start + left.length) (length - left.length) := by
  have total : left.length + right.length = length := by
    rw [← List.length_append, ← same, length_part within]
  have whole : part items start left.length ++ part items (start + left.length) right.length =
      left ++ right := by rw [← part_add, total, same]
  have sizes : (part items start left.length).length = left.length := length_part (by omega)
  have parts := List.append_inj whole sizes
  refine ⟨by omega, parts.1.symm, ?_⟩
  rw [← total, Nat.add_sub_cancel_left]
  exact parts.2.symm

end FormalLanguages
