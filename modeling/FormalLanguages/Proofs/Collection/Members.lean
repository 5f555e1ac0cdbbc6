import FormalLanguages.Collection.DeclaredMap
import FormalLanguages.Collection.DeclaredSet
import FormalLanguages.Collection.SortedMap
import FormalLanguages.Reachability
import Mathlib.Data.List.Forall2

namespace FormalLanguages

/-! What collections hold after they have been built up item by item, and how tests
on them read as statements about their members. -/

/-- If each step adds what its item adds and keeps what held before, then a fold
adds what any of its items adds. -/
theorem foldl_iff {α β : Type} (holds : β → Prop) (adds : α → Prop) {build : β → α → β}
    (step : ∀ built item, holds (build built item) ↔ adds item ∨ holds built)
    (items : List α) (built : β) :
    holds (items.foldl build built) ↔ (∃ item, item ∈ items ∧ adds item) ∨ holds built := by
  induction items generalizing built with
  | nil => simp
  | cons head tail induction =>
      rw [List.foldl_cons, induction, step]
      constructor
      · intro either
        rcases either with ⟨item, member, added⟩ | added | before
        · exact .inl ⟨item, List.mem_cons_of_mem _ member, added⟩
        · exact .inl ⟨head, List.mem_cons_self, added⟩
        · exact .inr before
      · intro either
        rcases either with ⟨item, member, added⟩ | before
        · rcases List.mem_cons.mp member with rfl | member
          · exact .inr (.inl added)
          · exact .inl ⟨item, member, added⟩
        · exact .inr (.inr before)

/-- What no step changes, a fold does not change. -/
theorem foldl_keeps {α β γ : Type} (view : β → γ) {build : β → α → β}
    (keeps : ∀ built item, view (build built item) = view built) (items : List α) (built : β) :
    view (items.foldl build built) = view built := by
  induction items generalizing built with
  | nil => rfl
  | cons head tail induction => exact (induction _).trans (keeps built head)

/-- Where each entry replaces what its key led to before, what is found is one of the entries. -/
theorem mem_of_foldl_lookup {β κ ν : Type} [DecidableEq κ] (lookup : β → κ → Option ν)
    {build : β → κ × ν → β} (step : ∀ built entry key,
      lookup (build built entry) key = if entry.1 = key then some entry.2 else lookup built key)
    {entries : List (κ × ν)} {built : β} {key : κ} {value : ν}
    (found : lookup (entries.foldl build built) key = some value) :
    (key, value) ∈ entries ∨ lookup built key = some value := by
  induction entries generalizing built with
  | nil => exact .inr found
  | cons entry rest induction =>
      rcases induction found with later | here
      · exact .inl (List.mem_cons_of_mem _ later)
      · rw [step] at here
        split at here
        case isTrue same =>
          cases here
          exact .inl (same ▸ List.mem_cons_self)
        case isFalse => exact .inr here

theorem foldl_length {α β : Type} (parts : α → List β) (items : List α) (count : Nat) :
    items.foldl (fun count item => count + (parts item).length) count =
      count + (items.flatMap parts).length := by
  induction items generalizing count with
  | nil => rfl
  | cons item rest induction =>
      rw [List.foldl_cons, induction, List.flatMap_cons, List.length_append, Nat.add_assoc]

section Forall₂

variable {α β : Type} {relates : α → β → Prop} {items : List α} {images : List β}

theorem exists_item (related : List.Forall₂ relates items images) {image : β}
    (member : image ∈ images) : ∃ item, item ∈ items ∧ relates item image := by
  induction related with
  | nil => cases member
  | cons here _ induction =>
      rcases List.mem_cons.mp member with rfl | later
      · exact ⟨_, List.mem_cons_self, here⟩
      · rcases induction later with ⟨item, inside, there⟩
        exact ⟨item, List.mem_cons_of_mem _ inside, there⟩

theorem exists_image (related : List.Forall₂ relates items images) {item : α}
    (member : item ∈ items) : ∃ image, image ∈ images ∧ relates item image :=
  exists_item related.flip member

theorem forall₂_append (related : List.Forall₂ relates items images) {item : α} {image : β}
    (last : relates item image) : List.Forall₂ relates (items ++ [item]) (images ++ [image]) :=
  List.rel_append related (.cons last .nil)

end Forall₂

namespace SortedSet

section Order

variable {α : Type} [Ord α] {members : SortedSet α} {test : α → Bool}

theorem any_iff : members.any test = true ↔ ∃ value, value ∈ members ∧ test value = true :=
  List.any_eq_true

theorem all_iff : members.all test = true ↔ ∀ value, value ∈ members → test value = true :=
  List.all_eq_true

theorem isEmpty_eq_false_iff : members.isEmpty = false ↔ ∃ value, value ∈ members := by
  rw [← Bool.not_eq_true, isEmpty_iff, Classical.not_forall_not]

theorem singleton_inj {left right : α} : singleton left = singleton right ↔ left = right :=
  ⟨fun equal => List.singleton_inj.mp (congrArg toList equal), congrArg singleton⟩

theorem singleton_ne_empty {value : α} : singleton value ≠ ∅ := fun empty =>
  not_mem_empty (empty ▸ mem_singleton.mpr rfl : value ∈ ∅)

end Order

section LawfulOrder

variable {α : Type} [Ord α] [Std.TransOrd α] [Std.LawfulEqOrd α] {members : SortedSet α}

omit [Std.LawfulEqOrd α] in
theorem eq_empty (none : ∀ value, ¬ value ∈ members) : members = ∅ :=
  ext fun value => iff_of_false (none value) not_mem_empty

omit [Std.LawfulEqOrd α] in
theorem eq_singleton {value : α} (only : ∀ other, other ∈ members ↔ other = value) :
    members = singleton value :=
  ext fun other => (only other).trans mem_singleton.symm

omit [Std.LawfulEqOrd α] in
theorem one_lt_size_iff : 1 < members.size ↔
    ∃ first second, first ∈ members ∧ second ∈ members ∧ first ≠ second := by
  have nodup := nodup_toList members
  simp only [size, ← mem_toList]
  match members.toList, nodup with
  | [], _ => simp
  | [value], _ => simp
  | first :: second :: rest, nodup =>
      have different : first ≠ second := fun equal =>
        (List.nodup_cons.mp nodup).1 (equal ▸ List.mem_cons_self)
      exact iff_of_true (by simp) ⟨first, second, by simp, by simp, different⟩

omit [Std.LawfulEqOrd α] in
theorem size_eq_one_iff : members.size = 1 ↔ ∃ value, ∀ other, other ∈ members ↔ other = value := by
  constructor
  · intro one
    rcases List.length_eq_one_iff.mp one with ⟨value, only⟩
    refine ⟨value, fun other => ?_⟩
    rw [← mem_toList, only, List.mem_singleton]
  · intro found
    rcases found with ⟨value, only⟩
    rw [eq_singleton only]
    rfl

/-! Sizes are compared by counting members that differ. -/

omit [Std.LawfulEqOrd α] in
theorem size_le_length [DecidableEq α] {values : List α}
    (inside : ∀ value, value ∈ members → value ∈ values) : members.size ≤ values.length :=
  Reachable.length_le_of_nodup (nodup_toList members) inside

omit [Std.LawfulEqOrd α] in
theorem size_lt_length [DecidableEq α] {values : List α} {extra : α}
    (inside : ∀ value, value ∈ members → value ∈ values) (member : extra ∈ values)
    (new : ¬ extra ∈ members) : members.size < values.length := by
  have nodup : (extra :: members.toList).Nodup := List.nodup_cons.mpr ⟨new, nodup_toList members⟩
  apply Reachable.length_le_of_nodup nodup
  intro value listed
  rcases List.mem_cons.mp listed with rfl | listed
  · exact member
  · exact inside value listed

end LawfulOrder

end SortedSet

namespace SortedMap

theorem keys_mapValues {κ ν μ : Type} [Ord κ] (entries : SortedMap κ ν) (transform : κ → ν → μ) :
    (entries.mapValues transform).keys = entries.keys := by
  have same : (entries.mapValues transform).keyList = entries.keyList := List.map_map
  rw [keys, keys]
  congr 1

theorem keys_filter {κ ν : Type} [Ord κ] (entries : SortedMap κ ν) (test : κ → Bool) :
    (entries.filter fun key _ => test key).keys = entries.keys.filter test := by
  have same : (entries.filter fun key _ => test key).keyList = entries.keyList.filter test :=
    List.filter_map.symm
  rw [keys, keys, SortedSet.filter]
  congr 1

variable {κ ν : Type} [Ord κ] [Std.TransOrd κ] [Std.LawfulEqOrd κ] [DecidableEq κ]

omit [Std.LawfulEqOrd κ] in
theorem mem_values_iff {entries : SortedMap κ ν} {value : ν} :
    value ∈ entries.values ↔ ∃ key, entries.get? key = some value := by
  constructor
  · intro member
    rcases List.mem_map.mp member with ⟨⟨key, value⟩, inside, rfl⟩
    exact ⟨key, get?_eq_some_iff.mpr inside⟩
  · intro found
    rcases found with ⟨key, found⟩
    exact List.mem_map_of_mem (f := Prod.snd) (get?_eq_some_iff.mp found)

omit [Std.LawfulEqOrd κ] in
theorem get?_filter_eq_some_iff {entries : SortedMap κ ν} {test : κ → ν → Bool} {key : κ}
    {value : ν} :
    (entries.filter test).get? key = some value ↔
      entries.get? key = some value ∧ test key value = true := by
  rw [get?_eq_some_iff, get?_eq_some_iff]
  exact List.mem_filter

omit [DecidableEq κ] in
theorem mem_ofList {entries : List (κ × ν)} {key : κ} :
    key ∈ ofList entries ↔ key ∈ entries.map Prod.fst := by
  have folded := foldl_iff (fun known : SortedMap κ ν => key ∈ known)
    (fun entry : κ × ν => key = entry.1) (fun known entry => mem_insert known entry.1 key entry.2)
    entries ∅
  refine (folded.trans (or_iff_left List.not_mem_nil)).trans ?_
  rw [List.mem_map]
  exact exists_congr fun _ => and_congr_right fun _ => eq_comm

theorem get?_foldl_insert {entries : List (κ × ν)} (nodup : (entries.map Prod.fst).Nodup)
    {known : SortedMap κ ν} {key : κ} {value : ν} :
    (entries.foldl (fun known entry => known.insert entry.1 entry.2) known).get? key = some value ↔
      (key, value) ∈ entries ∨ key ∉ entries.map Prod.fst ∧ known.get? key = some value := by
  induction entries generalizing known with
  | nil => simp
  | cons entry rest induction =>
      rcases List.nodup_cons.mp nodup with ⟨new, nodupRest⟩
      rw [List.foldl_cons, induction nodupRest, get?_insert]
      by_cases same : entry.1 = key
      · subst same
        have absent : (entry.1, value) ∉ rest := fun member =>
          new (List.mem_map.mpr ⟨_, member, rfl⟩)
        simp [new, absent, Prod.ext_iff, eq_comm]
      · have different : (key, value) ≠ entry := fun equal => same (equal ▸ rfl)
        simp [same, different, Ne.symm same]

/-- Where no key is given twice, every value stays. -/
theorem get?_ofList {entries : List (κ × ν)} (nodup : (entries.map Prod.fst).Nodup) {key : κ}
    {value : ν} : (ofList entries).get? key = some value ↔ (key, value) ∈ entries :=
  (get?_foldl_insert nodup).trans (or_iff_left fun found => nomatch found.2)

theorem mem_of_get?_ofList {entries : List (κ × ν)} {key : κ} {value : ν}
    (found : (ofList entries).get? key = some value) : (key, value) ∈ entries :=
  (mem_of_foldl_lookup (fun (known : SortedMap κ ν) key => known.get? key)
    (fun known entry key => get?_insert known entry.1 key entry.2) found).resolve_right
      (fun none => nomatch none)

omit [Std.LawfulEqOrd κ] in
theorem entries_eq_filterMap (entries : SortedMap κ ν) : entries.entries =
    entries.keyList.filterMap fun key => (entries.get? key).map (Prod.mk key) := by
  rw [keyList, List.filterMap_map]
  refine List.filterMap_some.symm.trans (List.filterMap_congr fun entry member => ?_)
  rw [Function.comp_apply, get?_eq_some_iff.mpr member]
  rfl

omit [Std.LawfulEqOrd κ] in
theorem ext {left right : SortedMap κ ν} (same : ∀ key, left.get? key = right.get? key) :
    left = right := by
  have keys : left.keys = right.keys := SortedSet.ext fun key => by
    rw [mem_keys, mem_keys, ← isSome_get?, ← isSome_get?, same]
  have listed : left.keyList = right.keyList := congrArg SortedSet.toList keys
  have entries : left.entries = right.entries := by
    rw [entries_eq_filterMap left, entries_eq_filterMap right, listed]
    simp only [same]
  cases left
  cases right
  cases entries
  rfl

end SortedMap

theorem DeclaredSet.toList_insert {α : Type} [DecidableEq α] {members : DeclaredSet α} {value : α}
    (new : ¬ value ∈ members) : (members.insert value).toList = members.toList ++ [value] := by
  rw [insert, dif_neg new]

namespace DeclaredMap

variable {κ ν : Type} [DecidableEq κ]

theorem map_fst_put {key : κ} {value : ν} {entries : List (κ × ν)} :
    (put key value entries).map Prod.fst =
      if key ∈ entries.map Prod.fst then entries.map Prod.fst
      else entries.map Prod.fst ++ [key] := by
  induction entries with
  | nil => rfl
  | cons head tail induction =>
      by_cases same : head.1 = key
      · simp [put, same]
      · rw [put, if_neg same, List.map_cons, induction, List.map_cons]
        simp only [List.mem_cons, Ne.symm same, false_or]
        split <;> rfl

theorem keys_insert {entries : DeclaredMap κ ν} {key : κ} {value : ν} :
    (entries.insert key value).keys =
      if key ∈ entries then entries.keys else entries.keys ++ [key] := map_fst_put

theorem lookup_filter_ne {key other : κ} {entries : List (κ × ν)} :
    Entries.lookup other (entries.filter fun entry => entry.1 ≠ key) =
      if key = other then none else Entries.lookup other entries := by
  induction entries with
  | nil => split <;> rfl
  | cons head tail induction =>
      by_cases erased : head.1 = key
      · rw [List.filter_cons_of_neg (by simpa using erased), induction]
        by_cases same : key = other <;> simp [Entries.lookup, erased, same]
      · rw [List.filter_cons_of_pos (by simpa using erased), Entries.lookup, induction]
        by_cases same : key = other
        · rw [if_neg fun found => erased (found.trans same.symm), if_pos same, if_pos same]
        · rw [if_neg same, if_neg same, Entries.lookup]

theorem get?_erase {entries : DeclaredMap κ ν} {key other : κ} :
    (entries.erase key).get? other = if key = other then none else entries.get? other :=
  lookup_filter_ne

theorem mem_of_get?_ofList {entries : List (κ × ν)} {key : κ} {value : ν}
    (found : (ofList entries).get? key = some value) : (key, value) ∈ entries :=
  (mem_of_foldl_lookup (fun (known : DeclaredMap κ ν) key => known.get? key)
    (fun known entry key => get?_insert known entry.1 key entry.2) found).resolve_right
      (fun none => nomatch none)

theorem mem_erase {entries : DeclaredMap κ ν} {key other : κ} :
    other ∈ entries.erase key ↔ other ∈ entries ∧ other ≠ key := by
  change other ∈ (entries.entries.filter _).map Prod.fst ↔ other ∈ entries.entries.map Prod.fst ∧ _
  simp only [List.mem_map, List.mem_filter, decide_eq_true_eq]
  constructor
  · intro found
    rcases found with ⟨entry, ⟨inside, different⟩, rfl⟩
    exact ⟨⟨entry, inside, rfl⟩, different⟩
  · intro found
    rcases found with ⟨⟨entry, inside, rfl⟩, different⟩
    exact ⟨entry, ⟨inside, different⟩, rfl⟩

end DeclaredMap

end FormalLanguages
