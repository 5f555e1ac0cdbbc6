namespace FormalLanguages

/-! Sets that remember the order in which their members were declared. Declaring
a member again changes nothing. -/

structure DeclaredSet (α : Type) where
  toList : List α
  nodup : toList.Nodup

namespace DeclaredSet

variable {α : Type}

def empty : DeclaredSet α := ⟨[], .nil⟩

instance : EmptyCollection (DeclaredSet α) := ⟨empty⟩

instance : Inhabited (DeclaredSet α) := ⟨empty⟩

instance : Membership α (DeclaredSet α) := ⟨fun members value => value ∈ members.toList⟩

theorem mem_toList {members : DeclaredSet α} {value : α} :
    value ∈ members.toList ↔ value ∈ members := Iff.rfl

@[simp] theorem not_mem_empty {value : α} : ¬ value ∈ (∅ : DeclaredSet α) := List.not_mem_nil

variable [DecidableEq α]

instance (value : α) (members : DeclaredSet α) : Decidable (value ∈ members) :=
  inferInstanceAs (Decidable (value ∈ members.toList))

instance : DecidableEq (DeclaredSet α) := fun left right =>
  if same : left.toList = right.toList then
    isTrue (by cases left; cases right; cases same; rfl)
  else
    isFalse fun equal => same (equal ▸ rfl)

def insert (members : DeclaredSet α) (value : α) : DeclaredSet α :=
  if new : value ∈ members then
    members
  else
    ⟨members.toList ++ [value], List.nodup_append.mpr
      ⟨members.nodup, List.pairwise_singleton _ value, fun _ member _ equal same =>
        new (List.mem_singleton.mp equal ▸ same ▸ member)⟩⟩

@[simp] theorem mem_insert {members : DeclaredSet α} {value other : α} :
    other ∈ members.insert value ↔ other = value ∨ other ∈ members := by
  unfold insert
  split
  case isTrue member =>
    exact ⟨Or.inr, fun cases => cases.elim (fun equal => equal ▸ member) id⟩
  case isFalse =>
    rw [← mem_toList, List.mem_append, List.mem_singleton, mem_toList, or_comm]

def ofList (values : List α) : DeclaredSet α := values.foldl insert ∅

theorem mem_foldl_insert {values : List α} {members : DeclaredSet α} {value : α} :
    value ∈ values.foldl insert members ↔ value ∈ members ∨ value ∈ values := by
  induction values generalizing members with
  | nil => simp
  | cons head tail induction =>
      rw [List.foldl_cons, induction, mem_insert, List.mem_cons, or_assoc, or_left_comm]

@[simp] theorem mem_ofList {values : List α} {value : α} :
    value ∈ ofList values ↔ value ∈ values := by
  rw [ofList, mem_foldl_insert]
  exact ⟨fun cases => cases.resolve_left not_mem_empty, Or.inr⟩

def erase (members : DeclaredSet α) (value : α) : DeclaredSet α :=
  ⟨members.toList.filter (· ≠ value), members.nodup.filter _⟩

@[simp] theorem mem_erase {members : DeclaredSet α} {value other : α} :
    other ∈ members.erase value ↔ other ∈ members ∧ other ≠ value := by
  rw [erase, ← mem_toList, List.mem_filter, decide_eq_true_eq, mem_toList]

/-- Two sets have the same members whatever the order of declaration. -/
def sameMembers (left right : DeclaredSet α) : Bool :=
  left.toList.all (· ∈ right) && right.toList.all (· ∈ left)

theorem sameMembers_iff {left right : DeclaredSet α} :
    left.sameMembers right = true ↔ ∀ value, value ∈ left ↔ value ∈ right := by
  simp only [sameMembers, Bool.and_eq_true, List.all_eq_true, decide_eq_true_eq, mem_toList]
  exact ⟨fun both value => ⟨both.1 value, both.2 value⟩,
    fun same => ⟨fun value => (same value).mp, fun value => (same value).mpr⟩⟩

end DeclaredSet

example : (DeclaredSet.ofList ["S", "A", "S"]).toList = ["S", "A"] := by decide

end FormalLanguages
