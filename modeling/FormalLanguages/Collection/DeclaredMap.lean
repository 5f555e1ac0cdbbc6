import FormalLanguages.Collection.Entries

namespace FormalLanguages

/-! Maps that remember the order in which their keys were first given a value. A
later value takes the place of the earlier one. -/

structure DeclaredMap (κ ν : Type) where
  entries : List (κ × ν)
  nodup : (entries.map Prod.fst).Nodup

namespace DeclaredMap

variable {κ ν : Type}

def empty : DeclaredMap κ ν := ⟨[], List.nodup_nil⟩

instance : EmptyCollection (DeclaredMap κ ν) := ⟨empty⟩

instance : Inhabited (DeclaredMap κ ν) := ⟨empty⟩

def keys (entries : DeclaredMap κ ν) : List κ := entries.entries.map Prod.fst

instance : Membership κ (DeclaredMap κ ν) := ⟨fun entries key => key ∈ entries.keys⟩

variable [DecidableEq κ]

instance (key : κ) (entries : DeclaredMap κ ν) : Decidable (key ∈ entries) :=
  inferInstanceAs (Decidable (key ∈ entries.keys))

instance [DecidableEq ν] : DecidableEq (DeclaredMap κ ν) := fun left right =>
  if same : left.entries = right.entries then
    isTrue (by cases left; cases right; cases same; rfl)
  else
    isFalse fun equal => same (equal ▸ rfl)

def get? (entries : DeclaredMap κ ν) (key : κ) : Option ν := Entries.lookup key entries.entries

def put (key : κ) (value : ν) : List (κ × ν) → List (κ × ν)
  | [] => [(key, value)]
  | head :: tail => if head.1 = key then (key, value) :: tail else head :: put key value tail

theorem mem_map_fst_put {key other : κ} {value : ν} {entries : List (κ × ν)} :
    other ∈ (put key value entries).map Prod.fst ↔
      other = key ∨ other ∈ entries.map Prod.fst := by
  induction entries with
  | nil => simp [put]
  | cons head tail induction =>
      by_cases same : head.1 = key
      · simp [put, same]
      · simp only [put, same, if_false, List.map_cons, List.mem_cons, induction]
        exact or_left_comm

theorem nodup_put {key : κ} {value : ν} {entries : List (κ × ν)}
    (nodup : (entries.map Prod.fst).Nodup) : ((put key value entries).map Prod.fst).Nodup := by
  induction entries with
  | nil => exact List.pairwise_singleton _ key
  | cons head tail induction =>
      have parts := List.nodup_cons.mp nodup
      by_cases same : head.1 = key
      · simp only [put, same, if_true, List.map_cons]
        exact List.nodup_cons.mpr ⟨same ▸ parts.1, parts.2⟩
      · simp only [put, same, if_false, List.map_cons]
        refine List.nodup_cons.mpr ⟨fun member => ?_, induction parts.2⟩
        cases mem_map_fst_put.mp member with
        | inl equal => exact same equal
        | inr member => exact parts.1 member

def insert (entries : DeclaredMap κ ν) (key : κ) (value : ν) : DeclaredMap κ ν :=
  ⟨put key value entries.entries, nodup_put entries.nodup⟩

theorem lookup_put {key other : κ} {value : ν} {entries : List (κ × ν)} :
    Entries.lookup other (put key value entries) =
      if key = other then some value else Entries.lookup other entries := by
  induction entries with
  | nil => rfl
  | cons head tail induction =>
      by_cases same : head.1 = key
      · by_cases equal : key = other <;> simp [put, Entries.lookup, same, equal]
      · by_cases equal : key = other
        · subst equal
          simp [put, Entries.lookup, same, induction]
        · simp [put, Entries.lookup, same, equal, induction]

@[simp] theorem get?_insert (entries : DeclaredMap κ ν) (key other : κ) (value : ν) :
    (entries.insert key value).get? other =
      if key = other then some value else entries.get? other := lookup_put

@[simp] theorem mem_insert {entries : DeclaredMap κ ν} {key other : κ} {value : ν} :
    other ∈ entries.insert key value ↔ other = key ∨ other ∈ entries := mem_map_fst_put

def ofList (entries : List (κ × ν)) : DeclaredMap κ ν :=
  entries.foldl (fun known entry => known.insert entry.1 entry.2) ∅

def erase (entries : DeclaredMap κ ν) (key : κ) : DeclaredMap κ ν where
  entries := entries.entries.filter fun entry => entry.1 ≠ key
  nodup := entries.nodup.sublist (List.Sublist.map Prod.fst List.filter_sublist)

omit [DecidableEq κ] in
theorem map_fst_mapped (transform : κ → ν → ν) (entries : List (κ × ν)) :
    (entries.map fun entry => (entry.1, transform entry.1 entry.2)).map Prod.fst =
      entries.map Prod.fst := List.map_map

def mapValues (entries : DeclaredMap κ ν) (transform : κ → ν → ν) : DeclaredMap κ ν where
  entries := entries.entries.map fun entry => (entry.1, transform entry.1 entry.2)
  nodup := by
    rw [map_fst_mapped]
    exact entries.nodup

@[simp] theorem get?_mapValues (entries : DeclaredMap κ ν) (transform : κ → ν → ν) (key : κ) :
    (entries.mapValues transform).get? key = (entries.get? key).map (transform key) :=
  Entries.lookup_map_value transform key entries.entries

omit [DecidableEq κ] in
@[simp] theorem mem_mapValues {entries : DeclaredMap κ ν} {transform : κ → ν → ν} {key : κ} :
    key ∈ entries.mapValues transform ↔ key ∈ entries :=
  iff_of_eq (congrArg (fun keys : List κ => key ∈ keys) (map_fst_mapped transform entries.entries))

theorem get?_eq_some_iff {entries : DeclaredMap κ ν} {key : κ} {value : ν} :
    entries.get? key = some value ↔ (key, value) ∈ entries.entries :=
  ⟨Entries.mem_of_lookup, Entries.lookup_of_mem entries.nodup⟩

theorem mapValues_eq_self {entries : DeclaredMap κ ν} {transform : κ → ν → ν}
    (same : ∀ key value, entries.get? key = some value → transform key value = value) :
    entries.mapValues transform = entries := by
  have each : entries.entries.map (fun entry => (entry.1, transform entry.1 entry.2)) =
      entries.entries := by
    refine (List.map_congr_left fun entry member => ?_).trans (List.map_id _)
    exact Prod.ext rfl (same entry.1 entry.2 (get?_eq_some_iff.mpr member))
  cases entries
  rw [mapValues]
  congr 1

/-- Two maps hold the same values whatever the order of their keys. -/
def sameEntries [DecidableEq ν] (left right : DeclaredMap κ ν) : Bool :=
  left.entries.all (fun entry => right.get? entry.1 = some entry.2) &&
    right.entries.all (fun entry => left.get? entry.1 = some entry.2)

theorem sameEntries_iff [DecidableEq ν] {left right : DeclaredMap κ ν} :
    left.sameEntries right = true ↔ ∀ key, left.get? key = right.get? key := by
  simp only [sameEntries, Bool.and_eq_true, List.all_eq_true, decide_eq_true_eq]
  constructor
  · intro both key
    exact Option.ext fun value =>
      ⟨fun found => both.1 (key, value) (get?_eq_some_iff.mp found),
        fun found => both.2 (key, value) (get?_eq_some_iff.mp found)⟩
  · intro same
    exact ⟨fun entry member => (same entry.1).symm.trans (get?_eq_some_iff.mpr member),
      fun entry member => (same entry.1).trans (get?_eq_some_iff.mpr member)⟩

end DeclaredMap

example : (DeclaredMap.ofList [("S", 1), ("A", 2), ("S", 3)]).entries = [("S", 3), ("A", 2)] := by
  decide

end FormalLanguages
