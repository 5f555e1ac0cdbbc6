import FormalLanguages.Automaton.Product
import FormalLanguages.Proofs.Automaton.Minimisation
import FormalLanguages.Proofs.Automaton.SubsetNames
import Mathlib.Data.List.ProdSigma

namespace FormalLanguages.Automaton.Product

/-! # Running two automata in lockstep

The combined automaton is built from the pairs of states that one word leads to. Its
states are the names of those pairs, and its edges lead from the name of a pair to the
name of the pair that follows it. -/

variable {acceptance : Acceptance} {left right : Automaton} {pair target : Pair}
  {symbol state : String}

/-! ## Names

The first comma in the name of a pair ends the name of its left member, unless that
has a comma of its own. -/

theorem toList_name (pair : Pair) :
    (name pair).toList = '(' :: (pair.1.toList ++ ',' :: (pair.2.toList ++ [')'])) := by
  simp [name]

theorem append_comma_inj {first second firstRest secondRest : List Char}
    (plainFirst : ¬ ',' ∈ first) (plainSecond : ¬ ',' ∈ second)
    (same : first ++ ',' :: firstRest = second ++ ',' :: secondRest) :
    first = second ∧ firstRest = secondRest := by
  rcases List.append_eq_append_iff.mp same with ⟨between, rfl, rest⟩ | ⟨between, rfl, rest⟩
  · cases between with
    | nil => exact ⟨(List.append_nil _).symm, (List.cons.inj rest).2⟩
    | cons head tail =>
        cases (List.cons.inj rest).1
        exact absurd (List.mem_append_right _ List.mem_cons_self) plainSecond
  · cases between with
    | nil => exact ⟨List.append_nil _, (List.cons.inj rest).2.symm⟩
    | cons head tail =>
        cases (List.cons.inj rest).1
        exact absurd (List.mem_append_right _ List.mem_cons_self) plainFirst

theorem name_injective {first second : Pair} (plainFirst : ¬ ',' ∈ first.1.toList)
    (plainSecond : ¬ ',' ∈ second.1.toList) (same : name first = name second) :
    first = second := by
  have spelled := congrArg String.toList same
  rw [toList_name, toList_name] at spelled
  rcases append_comma_inj plainFirst plainSecond (List.cons.inj spelled).2 with ⟨sameLeft, rest⟩
  exact Prod.ext (String.toList_inj.mp sameLeft)
    (String.toList_inj.mp (List.append_cancel_right rest))

/-! ## The pairs that are reached -/

theorem follow?_eq_some_iff (deterministicLeft : left.Deterministic)
    (deterministicRight : right.Deterministic) :
    follow? left right pair symbol = some target ↔
      Edge.mk (.symbol symbol) target.1 ∈ left.edges pair.1 ∧
        Edge.mk (.symbol symbol) target.2 ∈ right.edges pair.2 := by
  rw [← deterministicLeft.target?_eq_some_iff, ← deterministicRight.target?_eq_some_iff, follow?]
  cases left.target? pair.1 (.symbol symbol) <;> cases right.target? pair.2 (.symbol symbol) <;>
    simp [Prod.ext_iff]

/-- The pairs that follow a pair, one for each symbol that both of its members can read. -/
def followers (left right : Automaton) (pair : Pair) : List Pair :=
  left.alphabet.toList.filterMap (follow? left right pair)

theorem mem_followers_iff (valid : left.Valid) (deterministicLeft : left.Deterministic)
    (deterministicRight : right.Deterministic) :
    target ∈ followers left right pair ↔
      ∃ symbol, Edge.mk (.symbol symbol) target.1 ∈ left.edges pair.1 ∧
        Edge.mk (.symbol symbol) target.2 ∈ right.edges pair.2 := by
  simp only [followers, List.mem_filterMap, SortedSet.mem_toList,
    follow?_eq_some_iff deterministicLeft deterministicRight]
  refine exists_congr fun symbol => and_iff_right_of_imp fun edges => ?_
  exact valid.symbols _ _ _ edges.1

section Reached

variable (valid : left.Valid) (deterministicLeft : left.Deterministic)
  (deterministicRight : right.Deterministic)

include valid deterministicLeft deterministicRight

theorem reachable_of_paths {seeds : List Pair} {word : List String}
    (pathLeft : left.Path pair.1 word target.1) (pathRight : right.Path pair.2 word target.2)
    (reached : Reachable (followers left right) seeds pair) :
    Reachable (followers left right) seeds target := by
  induction word generalizing pair with
  | nil =>
      have sameLeft := (path_nil_iff deterministicLeft.loud).mp pathLeft
      have sameRight := (path_nil_iff deterministicRight.loud).mp pathRight
      exact Prod.ext sameLeft sameRight ▸ reached
  | cons symbol word induction =>
      cases pathLeft with
      | skip edge _ => exact absurd edge (deterministicLeft.loud _ _)
      | @consume _ leftMiddle _ _ _ leftEdge leftRest =>
          cases pathRight with
          | skip edge _ => exact absurd edge (deterministicRight.loud _ _)
          | @consume _ rightMiddle _ _ _ rightEdge rightRest =>
              have follows : (leftMiddle, rightMiddle) ∈ followers left right pair :=
                (mem_followers_iff valid deterministicLeft deterministicRight).mpr
                  ⟨symbol, leftEdge, rightEdge⟩
              exact @induction (leftMiddle, rightMiddle) leftRest rightRest
                (.follow reached follows)

/-- The pairs that a search from the two start states finds are those that meet. -/
theorem reachable_followers_iff :
    Reachable (followers left right) [(left.starting, right.starting)] pair ↔
      left.Meet right pair.1 pair.2 := by
  constructor
  · intro reached
    induction reached with
    | seed member =>
        rcases List.mem_singleton.mp member with rfl
        exact ⟨[], .stay _, .stay _⟩
    | follow _ member induction =>
        rcases induction with ⟨word, pathLeft, pathRight⟩
        rcases (mem_followers_iff valid deterministicLeft deterministicRight).mp member with
          ⟨symbol, leftEdge, rightEdge⟩
        exact ⟨word ++ [symbol], pathLeft.append (.consume leftEdge (.stay _)),
          pathRight.append (.consume rightEdge (.stay _))⟩
  · rintro ⟨word, pathLeft, pathRight⟩
    have first : Reachable (followers left right) [(left.starting, right.starting)]
        (left.starting, right.starting) := .seed (List.mem_singleton_self _)
    exact reachable_of_paths valid deterministicLeft deterministicRight pathLeft pathRight first

omit valid deterministicLeft deterministicRight in
/-- There are no more pairs to meet than pairs of states that the automata mention. -/
theorem mem_candidates_of_meet (meet : left.Meet right pair.1 pair.2) :
    pair ∈ (Subset.mentioned left).product (Subset.mentioned right) := by
  rcases meet with ⟨word, pathLeft, pathRight⟩
  exact List.pair_mem_product.mpr
    ⟨Subset.mem_mentioned_of_path pathLeft List.mem_cons_self,
      Subset.mem_mentioned_of_path pathRight List.mem_cons_self⟩

omit valid deterministicLeft deterministicRight in
theorem length_candidates (left right : Automaton) :
    ((Subset.mentioned left).product (Subset.mentioned right)).length =
      (1 + left.edgeCount) * (1 + right.edgeCount) := by
  refine (List.length_product _ _).trans ?_
  simp only [Subset.mentioned, List.length_cons, length_edgeTargets, Nat.add_comm 1]

theorem covers_reachable (pair : Pair)
    (reached : Reachable (followers left right) [(left.starting, right.starting)] pair) :
    pair ∈ (Subset.mentioned left).product (Subset.mentioned right) :=
  mem_candidates_of_meet
    ((reachable_followers_iff valid deterministicLeft deterministicRight).mp reached)

theorem mem_reached_iff : pair ∈ reached left right ↔ left.Meet right pair.1 pair.2 :=
  (Reachable.mem_list_iff (covers_reachable valid deterministicLeft deterministicRight)
    (length_candidates left right).le).trans
    (reachable_followers_iff valid deterministicLeft deterministicRight)

theorem nodup_reached : (reached left right).Nodup :=
  Reachable.nodup_list (covers_reachable valid deterministicLeft deterministicRight)
    (length_candidates left right).le

end Reached

end FormalLanguages.Automaton.Product
