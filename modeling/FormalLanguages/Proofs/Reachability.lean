import FormalLanguages.Reachability

namespace FormalLanguages.Reachable

/-! # Searches come to an end

A search goes on for as long as an item waits. Where only finitely many items can be reached it
ends, and a bound on its rounds that allows for all of them cuts nothing off. -/

variable {α : Type} [DecidableEq α] {successors : α → List α} {seeds candidates : List α}

/-- A search without a bound on its rounds, from where it has got to up to its end. -/
inductive Exhausts (successors : α → List α) : (followed waiting found : List α) → Prop
  | finished (followed : List α) : Exhausts successors followed [] followed
  | round {followed waiting found : List α} {item : α}
      (later : Exhausts successors (followed ++ [item])
        (waiting ++ unseen (followed ++ item :: waiting) (successors item)) found) :
      Exhausts successors followed (item :: waiting) found

section Bounded

variable (covers : ∀ item, Reachable successors seeds item → item ∈ candidates)

include covers

theorem exhausts_followAll {rounds : Nat} {followed waiting : List α}
    (explored : Explored successors seeds followed waiting)
    (enough : candidates.length ≤ followed.length + rounds) :
    Exhausts successors followed waiting (followAll successors rounds followed waiting) := by
  induction rounds generalizing followed waiting with
  | zero =>
      have fits := length_le_of_nodup explored.nodup fun item member =>
        covers item (explored.reachable item member)
      rw [List.length_append] at fits
      have finished : waiting = [] := List.length_eq_zero_iff.mp (by omega)
      subst finished
      rw [followAll, List.append_nil]
      exact .finished followed
  | succ rounds induction =>
      cases waiting with
      | nil => exact .finished followed
      | cons item waiting =>
          refine .round (induction explored.next ?_)
          rw [List.length_append, List.length_singleton]
          omega

theorem exhausts_list {bound : Nat} (enough : candidates.length ≤ bound) :
    Exhausts successors [] (unseen [] seeds) (list bound successors seeds) :=
  exhausts_followAll covers .start (by simpa using enough)

end Bounded

end FormalLanguages.Reachable
