namespace FormalLanguages.Entries

/-! Looking up a key in a list of entries. The first entry of a key counts; where
no key occurs twice, that is the only one. -/

variable {κ ν μ : Type} [DecidableEq κ]

def lookup (key : κ) : List (κ × ν) → Option ν
  | [] => none
  | head :: tail => if head.1 = key then some head.2 else lookup key tail

example : lookup "a" [("b", 1), ("a", 2)] = some 2 := by decide

theorem isSome_lookup {key : κ} {entries : List (κ × ν)} :
    (lookup key entries).isSome = true ↔ key ∈ entries.map Prod.fst := by
  induction entries with
  | nil => simp [lookup]
  | cons head tail induction =>
      by_cases equal : head.1 = key
      · simp [lookup, equal]
      · simp only [lookup, equal, if_false, induction, List.map_cons, List.mem_cons]
        exact ⟨Or.inr, fun member => member.resolve_left fun same => equal same.symm⟩

theorem lookup_map_value (transform : κ → ν → μ) (key : κ) (entries : List (κ × ν)) :
    lookup key (entries.map fun entry => (entry.1, transform entry.1 entry.2)) =
      (lookup key entries).map (transform key) := by
  induction entries with
  | nil => rfl
  | cons head tail induction => by_cases equal : head.1 = key <;> simp [lookup, equal, induction]

theorem mem_of_lookup {key : κ} {value : ν} {entries : List (κ × ν)}
    (found : lookup key entries = some value) : (key, value) ∈ entries := by
  induction entries with
  | nil => cases found
  | cons head tail induction =>
      by_cases equal : head.1 = key
      · simp only [lookup, equal, if_true, Option.some.injEq] at found
        subst equal found
        exact List.mem_cons_self
      · simp only [lookup, equal, if_false] at found
        exact List.mem_cons_of_mem _ (induction found)

theorem lookup_of_mem {key : κ} {value : ν} {entries : List (κ × ν)}
    (nodup : (entries.map Prod.fst).Nodup) (member : (key, value) ∈ entries) :
    lookup key entries = some value := by
  induction entries with
  | nil => cases member
  | cons head tail induction =>
      have parts := List.nodup_cons.mp nodup
      rcases List.mem_cons.mp member with equal | member
      · simp [lookup, ← equal]
      · have different : head.1 ≠ key := fun equal =>
          parts.1 (equal ▸ List.mem_map_of_mem member)
        simpa [lookup, different] using induction parts.2 member

end FormalLanguages.Entries
