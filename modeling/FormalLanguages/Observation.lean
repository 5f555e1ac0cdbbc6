namespace FormalLanguages

/-! An observed algorithm shows its intermediate states. Each step holds a
snapshot and, where there is one, the reason why it holds. -/

structure Step (σ : Type) where
  snapshot : σ
  description : Option String := none
deriving DecidableEq, Repr

namespace Step

variable {σ : Type}

def described (snapshot : σ) (description : String) : Step σ := ⟨snapshot, some description⟩

/-- The description stands on a line above the snapshot. -/
def render (display : σ → String) (step : Step σ) : String :=
  match step.description with
  | none => display step.snapshot
  | some description => description ++ "\n" ++ display step.snapshot

end Step

structure Observed (σ ρ : Type) where
  result : ρ
  steps : List (Step σ)

/-- Holds the value that has been built after each item, beside that item. The last
one is the value of the fold over all items. -/
def progress {α β : Type} (build : β → α → β) (start : β) : List α → List (α × β)
  | [] => []
  | item :: rest =>
      let next := build start item
      (item, next) :: progress build next rest

theorem map_fst_progress {α β : Type} (build : β → α → β) (start : β) (items : List α) :
    (progress build start items).map Prod.fst = items := by
  induction items generalizing start with
  | nil => rfl
  | cons item rest induction => exact congrArg (item :: ·) (induction (build start item))

theorem getLast?_progress {α β : Type} (build : β → α → β) (start : β) (items : List α) :
    ((progress build start items).getLast?.map Prod.snd).getD start = items.foldl build start := by
  induction items generalizing start with
  | nil => rfl
  | cons item rest induction =>
      rw [List.foldl_cons, ← induction, progress, List.getLast?_cons]
      cases (progress build (build start item) rest).getLast? <;> rfl

end FormalLanguages
