import FormalLanguages.Collection.Entries
import FormalLanguages.Collection.SortedSet

namespace FormalLanguages

/-! Finite maps held as lists of entries with strictly ascending keys. As with
sets, a map has one representation and is met in the order of its keys. -/

structure SortedMap (κ ν : Type) [Ord κ] where
  entries : List (κ × ν)
  ascending : Ascending (entries.map Prod.fst)

namespace SortedMap

section Order

variable {κ ν μ : Type} [Ord κ]

def empty : SortedMap κ ν := ⟨[], ascending_nil⟩

def singleton (key : κ) (value : ν) : SortedMap κ ν :=
  ⟨[(key, value)], List.pairwise_singleton _ _⟩

instance : EmptyCollection (SortedMap κ ν) := ⟨empty⟩

instance : Inhabited (SortedMap κ ν) := ⟨empty⟩

instance [DecidableEq κ] [DecidableEq ν] : DecidableEq (SortedMap κ ν) := fun left right =>
  if same : left.entries = right.entries then
    isTrue (by cases left; cases right; cases same; rfl)
  else
    isFalse fun equal => same (equal ▸ rfl)

def keyList (entries : SortedMap κ ν) : List κ := entries.entries.map Prod.fst

def keys (entries : SortedMap κ ν) : SortedSet κ := ⟨entries.keyList, entries.ascending⟩

def values (entries : SortedMap κ ν) : List ν := entries.entries.map Prod.snd

instance : Membership κ (SortedMap κ ν) := ⟨fun entries key => key ∈ entries.keyList⟩

theorem mem_keys {entries : SortedMap κ ν} {key : κ} : key ∈ entries.keys ↔ key ∈ entries :=
  Iff.rfl

instance [DecidableEq κ] (key : κ) (entries : SortedMap κ ν) : Decidable (key ∈ entries) :=
  inferInstanceAs (Decidable (key ∈ entries.keyList))

def get? [DecidableEq κ] (entries : SortedMap κ ν) (key : κ) : Option ν :=
  Entries.lookup key entries.entries

/-! Changing values only, or leaving entries out, keeps the keys ascending. -/

def filter (entries : SortedMap κ ν) (test : κ → ν → Bool) : SortedMap κ ν where
  entries := entries.entries.filter fun entry => test entry.1 entry.2
  ascending := List.Pairwise.sublist
    (List.Sublist.map Prod.fst List.filter_sublist) entries.ascending

def mapValues (entries : SortedMap κ ν) (transform : κ → ν → μ) : SortedMap κ μ where
  entries := entries.entries.map fun entry => (entry.1, transform entry.1 entry.2)
  ascending := by
    rw [List.map_map]
    exact entries.ascending

@[simp] theorem get?_mapValues [DecidableEq κ] (entries : SortedMap κ ν)
    (transform : κ → ν → μ) (key : κ) :
    (entries.mapValues transform).get? key = (entries.get? key).map (transform key) :=
  Entries.lookup_map_value transform key entries.entries

theorem isSome_get? [DecidableEq κ] {entries : SortedMap κ ν} {key : κ} :
    (entries.get? key).isSome = true ↔ key ∈ entries := Entries.isSome_lookup

def insertAscending (key : κ) (value : ν) : List (κ × ν) → List (κ × ν)
  | [] => [(key, value)]
  | head :: tail =>
      match compare key head.1 with
      | .lt => (key, value) :: head :: tail
      | .eq => (key, value) :: tail
      | .gt => head :: insertAscending key value tail

theorem map_fst_insertAscending (key : κ) (value : ν) (entries : List (κ × ν)) :
    (insertAscending key value entries).map Prod.fst =
      SortedSet.insertAscending key (entries.map Prod.fst) := by
  induction entries with
  | nil => rfl
  | cons head tail induction =>
      cases order : compare key head.1 <;>
        simp [insertAscending, SortedSet.insertAscending, order, induction]

end Order

section LawfulOrder

variable {κ ν μ : Type} [Ord κ] [Std.TransOrd κ] [Std.LawfulEqOrd κ]

/-! A later value for a key replaces the earlier one. -/

def insert (entries : SortedMap κ ν) (key : κ) (value : ν) : SortedMap κ ν where
  entries := insertAscending key value entries.entries
  ascending := by
    rw [map_fst_insertAscending]
    exact SortedSet.ascending_insertAscending entries.ascending

def ofList (entries : List (κ × ν)) : SortedMap κ ν :=
  entries.foldl (fun known entry => known.insert entry.1 entry.2) ∅

variable [DecidableEq κ]

omit [Std.TransOrd κ] in
theorem lookup_insertAscending (key other : κ) (value : ν) (entries : List (κ × ν)) :
    Entries.lookup other (insertAscending key value entries) =
      if key = other then some value else Entries.lookup other entries := by
  induction entries with
  | nil => rfl
  | cons head tail induction =>
      cases order : compare key head.1 with
      | lt => simp only [insertAscending, order, Entries.lookup]
      | eq =>
          have same : key = head.1 := Std.LawfulEqOrd.eq_of_compare order
          by_cases equal : key = other <;>
            simp [insertAscending, Entries.lookup, equal, ← same]
      | gt =>
          have different : key ≠ head.1 := fun same => by
            rw [same, Std.ReflOrd.compare_self] at order
            cases order
          by_cases equal : key = other
          · subst equal
            simp [insertAscending, order, Entries.lookup, different.symm, induction]
          · simp [insertAscending, order, Entries.lookup, equal, induction]

@[simp] theorem get?_insert (entries : SortedMap κ ν) (key other : κ) (value : ν) :
    (entries.insert key value).get? other =
      if key = other then some value else entries.get? other :=
  lookup_insertAscending key other value entries.entries

omit [DecidableEq κ] in
@[simp] theorem mem_insert (entries : SortedMap κ ν) (key other : κ) (value : ν) :
    other ∈ entries.insert key value ↔ other = key ∨ other ∈ entries := by
  change other ∈ (insertAscending key value entries.entries).map Prod.fst ↔ _
  rw [map_fst_insertAscending]
  exact SortedSet.mem_insertAscending

omit [Std.LawfulEqOrd κ] [DecidableEq κ] in
theorem nodup_keyList (entries : SortedMap κ ν) : entries.keyList.Nodup :=
  entries.keys.nodup_toList

omit [Std.LawfulEqOrd κ] in
theorem get?_eq_some_iff {entries : SortedMap κ ν} {key : κ} {value : ν} :
    entries.get? key = some value ↔ (key, value) ∈ entries.entries :=
  ⟨Entries.mem_of_lookup, Entries.lookup_of_mem entries.nodup_keyList⟩

end LawfulOrder

end SortedMap

example : (SortedMap.ofList [("b", 1), ("a", 2), ("b", 3)]).entries = [("a", 2), ("b", 3)] := by
  decide

end FormalLanguages
