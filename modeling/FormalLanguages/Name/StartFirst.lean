namespace FormalLanguages.Name

/-! Listings put the start symbol before everything else and order the rest by
code points. -/

def compareStartFirst (start : Option String) (left right : String) : Ordering :=
  if start = some left then
    if start = some right then .eq else .lt
  else
    if start = some right then .gt else compare left right

/-- Names that compare as equal keep their order. -/
def insertStartFirst (start : Option String) (name : String) : List String → List String
  | [] => [name]
  | head :: tail =>
      if compareStartFirst start name head = .gt then
        head :: insertStartFirst start name tail
      else
        name :: head :: tail

def startFirst (names : List String) (start : Option String) : List String :=
  names.foldr (insertStartFirst start) []

theorem insertStartFirst_perm (start : Option String) (name : String) (names : List String) :
    (insertStartFirst start name names).Perm (name :: names) := by
  induction names with
  | nil => exact .refl _
  | cons head tail induction =>
      rw [insertStartFirst]
      split
      · exact (induction.cons head).trans (.swap name head tail)
      · exact .refl _

theorem startFirst_perm (names : List String) (start : Option String) :
    (startFirst names start).Perm names := by
  induction names with
  | nil => exact .refl _
  | cons head tail induction =>
      exact (insertStartFirst_perm start head _).trans (induction.cons head)

theorem startFirst_eq_cons {start : String} {names : List String} (member : start ∈ names) :
    ∃ rest, startFirst names (some start) = start :: rest := by
  induction names with
  | nil => cases member
  | cons name names induction =>
      rw [startFirst, List.foldr_cons]
      change ∃ rest, insertStartFirst (some start) name (startFirst names (some start)) = _
      by_cases same : name = start
      · cases startFirst names (some start) with
        | nil => exact ⟨[], by rw [same]; rfl⟩
        | cons head tail =>
            refine ⟨head :: tail, ?_⟩
            have before : compareStartFirst (some start) name head ≠ .gt := by
              rw [compareStartFirst, if_pos (same ▸ rfl)]
              split <;> decide
            rw [insertStartFirst, if_neg before, same]
      · rcases induction ((List.mem_cons.mp member).resolve_left (Ne.symm same)) with ⟨rest, first⟩
        have after : compareStartFirst (some start) name start = .gt := by
          rw [compareStartFirst, if_neg fun equal => same (Option.some.inj equal).symm, if_pos rfl]
        rw [first, insertStartFirst, if_pos after]
        exact ⟨_, rfl⟩

example : startFirst ["B", "S", "A"] (some "S") = ["S", "A", "B"] := by decide

end FormalLanguages.Name
