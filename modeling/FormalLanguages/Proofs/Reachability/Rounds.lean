import FormalLanguages.Proofs.Reachability
import Mathlib.Data.Set.Finite.Basic

namespace FormalLanguages.Reachable

/-! # What a search asks for

A round takes the item that has waited longest and asks for its successors. Where only finitely
many items can be reached the rounds come to an end, and by then the successors of each of these
items have been asked for once, and of nothing else. -/

variable {α : Type}

/-- How far a search has got. -/
structure Search (α : Type) where
  followed : List α
  waiting : List α

namespace Search

def seen (search : Search α) : List α := search.followed ++ search.waiting

variable [DecidableEq α] {successors : α → List α} {seeds : List α}

/-- Seeds that are listed again wait only once. -/
def start (seeds : List α) : Search α := ⟨[], unseen [] seeds⟩

/-- One round asks for the successors of one item, and those that are new wait behind the rest. -/
inductive Round (successors : α → List α) : Search α → α → Search α → Prop
  | ask (followed waiting : List α) (item : α) :
      Round successors ⟨followed, item :: waiting⟩ item
        ⟨followed ++ [item], waiting ++ unseen (followed ++ item :: waiting) (successors item)⟩

/-- Any number of rounds, together with the items whose successors they ask for. -/
inductive Rounds (successors : α → List α) : Search α → List α → Search α → Prop
  | none (search : Search α) : Rounds successors search [] search
  | next {search middle last : Search α} {item : α} {asked : List α}
      (round : Round successors search item middle) (later : Rounds successors middle asked last) :
      Rounds successors search (item :: asked) last

/-! ## One round after another -/

variable {search last : Search α} {asked : List α}

theorem Round.unique {left right : Search α} {item other : α}
    (first : Round successors search item left) (second : Round successors search other right) :
    item = other ∧ left = right := by
  cases first
  cases second
  exact ⟨rfl, rfl⟩

theorem Round.not_finished {item : α} (round : Round successors search item last) :
    search.waiting ≠ [] := by
  cases round
  exact List.cons_ne_nil _ _

theorem Round.explored {item : α} (round : Round successors search item last)
    (explored : Explored successors seeds search.followed search.waiting) :
    Explored successors seeds last.followed last.waiting := by
  cases round
  exact explored.next

theorem Rounds.followed_eq (rounds : Rounds successors search asked last) :
    last.followed = search.followed ++ asked := by
  induction rounds with
  | none search => exact (List.append_nil _).symm
  | next round _ induction =>
      cases round
      rw [induction, List.append_assoc, List.singleton_append]

theorem Rounds.explored (rounds : Rounds successors search asked last)
    (explored : Explored successors seeds search.followed search.waiting) :
    Explored successors seeds last.followed last.waiting := by
  induction rounds with
  | none => exact explored
  | next round _ induction => exact induction (round.explored explored)

/-- Rounds do not branch, so all of them lead towards the end of the search. -/
theorem Rounds.prefix_of_finished {other : Search α} {begun : List α}
    (rounds : Rounds successors search begun other) (whole : Rounds successors search asked last)
    (finished : last.waiting = []) : begun <+: asked := by
  induction rounds generalizing asked with
  | none => exact List.nil_prefix
  | next round _ induction =>
      cases whole with
      | none => exact absurd finished round.not_finished
      | next first later =>
          rcases round.unique first with ⟨rfl, rfl⟩
          exact (List.prefix_cons_inj _).mpr (induction later)

/-! ## Searches that end -/

/-- The searches that end are those whose rounds lead to where nothing waits. -/
theorem exhausts_iff {followed waiting found : List α} :
    Exhausts successors followed waiting found ↔
      ∃ asked, Rounds successors ⟨followed, waiting⟩ asked ⟨found, []⟩ := by
  constructor
  · intro exhausts
    induction exhausts with
    | finished followed => exact ⟨[], .none _⟩
    | round _ induction =>
        rcases induction with ⟨asked, rounds⟩
        exact ⟨_, .next (.ask _ _ _) rounds⟩
  · rintro ⟨asked, rounds⟩
    generalize startsAt : Search.mk followed waiting = search at rounds
    generalize endsAt : Search.mk found [] = last at rounds
    induction rounds generalizing followed waiting with
    | none =>
        cases startsAt.trans endsAt.symm
        exact .finished found
    | next round _ induction =>
        cases round
        cases startsAt
        exact .round (induction rfl endsAt)

theorem rounds_list {candidates : List α}
    (covers : ∀ item, Reachable successors seeds item → item ∈ candidates) {bound : Nat}
    (enough : candidates.length ≤ bound) :
    Rounds successors (start seeds) (list bound successors seeds)
      ⟨list bound successors seeds, []⟩ := by
  rcases exhausts_iff.mp (exhausts_list covers enough) with ⟨asked, rounds⟩
  have same : list bound successors seeds = asked := rounds.followed_eq
  rwa [← same] at rounds

end Search

/-- What can be reached depends neither on the order nor on the number of mentions. -/
theorem congr {successors others : α → List α} {seeds otherSeeds : List α}
    (sameSeeds : ∀ item, item ∈ otherSeeds ↔ item ∈ seeds)
    (same : ∀ source item, item ∈ others source ↔ item ∈ successors source) {item : α} :
    Reachable others otherSeeds item ↔ Reachable successors seeds item := by
  constructor <;> intro reached
  · induction reached with
    | seed member => exact .seed ((sameSeeds _).mp member)
    | follow _ member induction => exact .follow induction ((same _ _).mp member)
  · induction reached with
    | seed member => exact .seed ((sameSeeds _).mpr member)
    | follow _ member induction => exact .follow induction ((same _ _).mpr member)

open Search

variable [DecidableEq α]

/-- Where finitely many items can be reached, the search ends on its own. It has then asked for the
successors of exactly these items, of each of them once, and they are what it has found; until
then, it has seen none of them twice and nothing else. The order in which seeds and successors are
given changes only the order of what is found. -/
theorem search_exact {successors : α → List α} {seeds : List α}
    (finite : {item | Reachable successors seeds item}.Finite) :
    ∃ asked : List α,
      Rounds successors (start seeds) asked ⟨asked, []⟩ ∧
      asked.Nodup ∧ (∀ item, item ∈ asked ↔ Reachable successors seeds item) ∧
      (∀ begun search, Rounds successors (start seeds) begun search →
        begun <+: asked ∧ search.seen.Nodup ∧ search.seen ⊆ asked) ∧
      (∀ bound, asked.length ≤ bound → list bound successors seeds = asked) ∧
      ∀ otherSeeds others, (∀ item, item ∈ otherSeeds ↔ item ∈ seeds) →
        (∀ source item, item ∈ others source ↔ item ∈ successors source) →
        ∀ bound, asked.length ≤ bound → (list bound others otherSeeds).Perm asked := by
  rcases finite.exists_finset with ⟨items, holds⟩
  have covered : ∀ item, Reachable successors seeds item → item ∈ items.toList :=
    fun item reached => Finset.mem_toList.mpr ((holds item).mpr reached)
  let asked := list items.toList.length successors seeds
  have rounds : Rounds successors (start seeds) asked ⟨asked, []⟩ :=
    rounds_list covered (Nat.le_refl _)
  have nodup : asked.Nodup := nodup_list covered (Nat.le_refl _)
  have members : ∀ item, item ∈ asked ↔ Reachable successors seeds item :=
    fun item => mem_list_iff covered (Nat.le_refl _)
  have found : ∀ item, Reachable successors seeds item → item ∈ asked :=
    fun item => (members item).mpr
  refine ⟨asked, rounds, nodup, members, fun begun search some => ?_, fun bound enough => ?_,
    fun otherSeeds others sameSeeds same bound enough => ?_⟩
  · have explored := some.explored .start
    exact ⟨some.prefix_of_finished rounds rfl, explored.nodup,
      fun item member => found item (explored.reachable item member)⟩
  · have other := rounds_list found enough
    exact (other.prefix_of_finished rounds rfl).eq_of_length_le
      (rounds.prefix_of_finished other rfl).length_le
  · have moved : ∀ item, Reachable others otherSeeds item → item ∈ asked :=
      fun item reached => found item ((congr sameSeeds same).mp reached)
    refine (List.perm_ext_iff_of_nodup (nodup_list moved enough) nodup).mpr fun item => ?_
    exact (mem_list_iff moved enough).trans ((congr sameSeeds same).trans (members item).symm)

/-- The vertices of a pentagon lead round it and across it. -/
def pentagon (vertex : Nat) : List Nat := [(vertex + 1) % 5, (vertex + 2) % 5]

theorem pentagon_lt {seeds : List Nat} (within : ∀ seed, seed ∈ seeds → seed < 5) {vertex : Nat}
    (reached : Reachable pentagon seeds vertex) : vertex < 5 := by
  cases reached with
  | seed member => exact within _ member
  | follow _ member =>
      rcases List.mem_pair.mp member with rfl | rfl <;> exact Nat.mod_lt _ (by decide)

theorem search_exact_pentagon :
    {vertex | Reachable pentagon [3, 0, 3] vertex}.Finite ∧
      Rounds pentagon (start [3, 0, 3]) [3, 0, 4, 1, 2] ⟨[3, 0, 4, 1, 2], []⟩ ∧
      (∀ vertex, vertex ∈ [3, 0, 4, 1, 2] ↔ Reachable pentagon [3, 0, 3] vertex) ∧
      (list 5 (List.reverse ∘ pentagon) [0, 3]).Perm [3, 0, 4, 1, 2] := by
  have below : ∀ vertex, Reachable pentagon [3, 0, 3] vertex → vertex < 5 :=
    fun vertex reached => pentagon_lt (by decide) reached
  have finite : {vertex | Reachable pentagon [3, 0, 3] vertex}.Finite :=
    (Set.finite_lt_nat 5).subset below
  rcases search_exact finite with ⟨asked, rounds, nodup, members, -, whole, mixed⟩
  have few : asked.length ≤ (List.range 5).length :=
    length_le_of_nodup nodup fun vertex member =>
      List.mem_range.mpr (below vertex ((members vertex).mp member))
  have order : [3, 0, 4, 1, 2] = asked := whole 5 few
  rw [order]
  have seeds (vertex : Nat) : vertex ∈ [0, 3] ↔ vertex ∈ [3, 0, 3] := by
    simp only [List.mem_cons, List.not_mem_nil, or_false]
    omega
  exact ⟨finite, rounds, members, mixed [0, 3] (List.reverse ∘ pentagon) seeds
    (fun source vertex => List.mem_reverse) 5 few⟩

end FormalLanguages.Reachable
