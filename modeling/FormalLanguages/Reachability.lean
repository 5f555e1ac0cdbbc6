namespace FormalLanguages

/-! Everything that can be reached from some seeds by following a successor
function, in the order of discovery: the items found first are followed first. The
list that is found holds exactly the reachable items, each once, if the number of
rounds is not smaller than the number of items that could be found. -/

variable {α : Type}

inductive Reachable (successors : α → List α) (seeds : List α) : α → Prop
  | seed {item : α} (member : item ∈ seeds) : Reachable successors seeds item
  | follow {source item : α} (reached : Reachable successors seeds source)
      (member : item ∈ successors source) : Reachable successors seeds item

namespace Reachable

variable [DecidableEq α]

/-- The first occurrence of every item that is not known yet. -/
def unseen (known : List α) : List α → List α
  | [] => []
  | head :: tail =>
      if head ∈ known then unseen known tail else head :: unseen (head :: known) tail

/-- One round follows the item that has waited longest. An item is followed once:
it never waits again after it has been seen. -/
def followAll (successors : α → List α) : (rounds : Nat) → (followed waiting : List α) → List α
  | 0, followed, waiting => followed ++ waiting
  | _ + 1, followed, [] => followed
  | rounds + 1, followed, item :: waiting =>
      let found := unseen (followed ++ item :: waiting) (successors item)
      followAll successors rounds (followed ++ [item]) (waiting ++ found)

/-- `bound` is a number of rounds that is large enough for all reachable items. -/
def list (bound : Nat) (successors : α → List α) (seeds : List α) : List α :=
  followAll successors bound [] (unseen [] seeds)

example : list 5 (fun n => [(n + 1) % 5, (n + 2) % 5]) [0] = [0, 1, 2, 3, 4] := by decide

/-! ### What is found -/

@[simp] theorem mem_unseen {known items : List α} {item : α} :
    item ∈ unseen known items ↔ item ∈ items ∧ ¬ item ∈ known := by
  induction items generalizing known with
  | nil => simp [unseen]
  | cons head tail induction =>
      by_cases same : item = head
      · subst same
        by_cases member : item ∈ known <;> simp [unseen, member, induction]
      · by_cases member : head ∈ known <;> simp [unseen, member, induction, same]

theorem nodup_unseen {known items : List α} : (unseen known items).Nodup := by
  induction items generalizing known with
  | nil => exact .nil
  | cons head tail induction =>
      rw [unseen]
      split
      · exact induction
      · exact List.nodup_cons.mpr ⟨by simp, induction⟩

/-- What holds after each round: every item that has been seen is reachable, and the
successors of every item that has been followed have been seen. -/
structure Explored (successors : α → List α) (seeds followed waiting : List α) : Prop where
  nodup : (followed ++ waiting).Nodup
  reachable : ∀ item, item ∈ followed ++ waiting → Reachable successors seeds item
  seeds : ∀ item, item ∈ seeds → item ∈ followed ++ waiting
  closed : ∀ source, source ∈ followed → ∀ item, item ∈ successors source →
    item ∈ followed ++ waiting

variable {successors : α → List α} {seeds : List α}

theorem Explored.start : Explored successors seeds [] (unseen [] seeds) where
  nodup := nodup_unseen
  reachable _ member := .seed (mem_unseen.mp member).1
  seeds _ member := mem_unseen.mpr ⟨member, List.not_mem_nil⟩
  closed _ member := absurd member List.not_mem_nil

theorem Explored.next {item : α} {followed waiting : List α}
    (explored : Explored successors seeds followed (item :: waiting)) :
    Explored successors seeds (followed ++ [item])
      (waiting ++ unseen (followed ++ item :: waiting) (successors item)) := by
  have seen : (followed ++ [item]) ++
      (waiting ++ unseen (followed ++ item :: waiting) (successors item)) =
      (followed ++ item :: waiting) ++ unseen (followed ++ item :: waiting) (successors item) := by
    simp
  constructor <;> rw [seen]
  · refine List.nodup_append.mpr ⟨explored.nodup, nodup_unseen, ?_⟩
    intro known inKnown found inFound equal
    exact (mem_unseen.mp inFound).2 (equal ▸ inKnown)
  · intro other member
    rcases List.mem_append.mp member with known | found
    · exact explored.reachable other known
    · have reached := explored.reachable item (by simp)
      exact .follow reached (mem_unseen.mp found).1
  · exact fun other member => List.mem_append_left _ (explored.seeds other member)
  · intro source member other successor
    rcases List.mem_append.mp member with before | last
    · exact List.mem_append_left _ (explored.closed source before other successor)
    · rcases List.mem_singleton.mp last with rfl
      by_cases known : other ∈ followed ++ source :: waiting
      · exact List.mem_append_left _ known
      · exact List.mem_append_right _ (mem_unseen.mpr ⟨successor, known⟩)

theorem length_le_of_nodup {items candidates : List α} (nodup : items.Nodup)
    (subset : ∀ item, item ∈ items → item ∈ candidates) : items.length ≤ candidates.length := by
  induction items generalizing candidates with
  | nil => exact Nat.zero_le _
  | cons head tail induction =>
      have parts := List.nodup_cons.mp nodup
      have member := subset head List.mem_cons_self
      have shorter : tail.length ≤ (candidates.erase head).length := by
        refine induction parts.2 fun item inTail => ?_
        have different : item ≠ head := fun equal => parts.1 (equal ▸ inTail)
        exact (List.mem_erase_of_ne different).mpr (subset item (List.mem_cons_of_mem _ inTail))
      have positive := List.length_pos_of_mem member
      rw [List.length_erase_of_mem member] at shorter
      rw [List.length_cons]
      omega

section Bounded

variable {candidates : List α}
  (covers : ∀ item, Reachable successors seeds item → item ∈ candidates)

include covers

theorem explored_followAll {rounds : Nat} {followed waiting : List α}
    (explored : Explored successors seeds followed waiting)
    (enough : candidates.length ≤ followed.length + rounds) :
    Explored successors seeds (followAll successors rounds followed waiting) [] := by
  induction rounds generalizing followed waiting with
  | zero =>
      have fits := length_le_of_nodup explored.nodup fun item member =>
        covers item (explored.reachable item member)
      rw [List.length_append] at fits
      have finished : waiting = [] := List.length_eq_zero_iff.mp (by omega)
      subst finished
      simpa [followAll] using explored
  | succ rounds induction =>
      cases waiting with
      | nil => exact explored
      | cons item waiting =>
          refine induction explored.next ?_
          rw [List.length_append, List.length_singleton]
          omega

variable {bound : Nat} (enough : candidates.length ≤ bound)

include enough

theorem explored_list : Explored successors seeds (list bound successors seeds) [] :=
  explored_followAll covers .start (by simpa using enough)

theorem nodup_list : (list bound successors seeds).Nodup := by
  simpa using (explored_list covers enough).nodup

theorem mem_list_iff {item : α} :
    item ∈ list bound successors seeds ↔ Reachable successors seeds item := by
  have explored := explored_list covers enough
  constructor
  · exact fun member => explored.reachable item (List.mem_append_left _ member)
  · intro reached
    induction reached with
    | seed member => simpa using explored.seeds _ member
    | follow _ member induction => simpa using explored.closed _ induction _ member

end Bounded

end Reachable

end FormalLanguages
