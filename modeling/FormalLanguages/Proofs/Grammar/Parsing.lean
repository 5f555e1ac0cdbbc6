import FormalLanguages.Proofs.Grammar.Chart.ReadingBack
import FormalLanguages.Proofs.Grammar.Membership

namespace FormalLanguages.Grammar

/-! # The chart and the parser

The chart holds exactly the parts that a non-terminal derives, and a tree is read back for each
of them, so the parser finds a tree for exactly the inputs that the start symbol derives. The
membership table agrees, and looking there first loses nothing. -/

variable {grammar : Grammar}

theorem isSome_get?_whole (grammar : Grammar) (tokens : List String) (name : String) :
    ((Chart.fill grammar tokens).get? ⟨name, 0, tokens.length⟩).isSome = true ↔
      grammar.Derives name tokens := by
  apply (Chart.charted_fill_iff (Nat.zero_le _) (Nat.le_refl _)).trans
  rw [Nat.sub_zero, part_whole]

theorem isSome_tree?_iff (grammar : Grammar) (tokens : List String) (name : String)
    (start stop : Nat) :
    ((Chart.fill grammar tokens).tree? name start stop).isSome = true ↔
      ((Chart.fill grammar tokens).get? ⟨name, start, stop⟩).isSome = true :=
  (Chart.filled_fill grammar tokens).grounded.isSome_tree?_iff

theorem WellFormed.isSome_parse?_iff (wellFormed : grammar.WellFormed) {input : String}
    {start : String} (isStart : grammar.start = some start) :
    (grammar.parse? input).isSome = true ↔ grammar.Derives start (grammar.tokenise input) := by
  rw [parse?, isStart]
  simp only [Bool.and_eq_true, decide_eq_true_eq, Bool.not_eq_true']
  split
  case isTrue rejected =>
    rw [← Membership.derives_membership_iff wellFormed rejected.1 isStart, rejected.2]
    rfl
  case isFalse => exact (isSome_tree?_iff ..).trans (isSome_get?_whole ..)

/-- The chart holds exactly what is derived, and a tree is read back for all that it holds. The
membership table rejects nothing that the chart holds, and there is a tree for exactly the inputs
that the start symbol derives. -/
theorem parse_exact (grammar : Grammar) (wellFormed : grammar.WellFormed) :
    (∀ tokens name start stop, start ≤ stop → stop ≤ tokens.length →
      ((((Chart.fill grammar tokens).get? ⟨name, start, stop⟩).isSome = true ↔
        grammar.Derives name (part tokens start (stop - start))) ∧
      (((Chart.fill grammar tokens).tree? name start stop).isSome = true ↔
        ((Chart.fill grammar tokens).get? ⟨name, start, stop⟩).isSome = true))) ∧
      (∀ input start, grammar.start = some start →
        (((Chart.fill grammar (grammar.tokenise input)).get?
            ⟨start, 0, (grammar.tokenise input).length⟩).isSome = true →
          input ≠ "" → (grammar.membership input).derives start = true) ∧
        ((grammar.parse? input).isSome = true ↔
          grammar.Derives start (grammar.tokenise input))) ∧
      (grammar.start = none → ∀ input, grammar.parse? input = none) := by
  refine ⟨fun tokens name start stop ordered within => ⟨?_, isSome_tree?_iff ..⟩,
    fun input start isStart => ⟨fun held filled => ?_, ?_⟩, fun none input => ?_⟩
  · exact Chart.charted_fill_iff ordered within
  · have derives := (isSome_get?_whole grammar (grammar.tokenise input) start).mp held
    exact (Membership.derives_membership_iff wellFormed filled isStart).mpr derives
  · exact wellFormed.isSome_parse?_iff isStart
  · rw [parse?, none]

theorem parse_exact_tangled :
    tangled.WellFormed ∧
      (∀ tokens name start stop, start ≤ stop → stop ≤ tokens.length →
        ((((Chart.fill tangled tokens).get? ⟨name, start, stop⟩).isSome = true ↔
          tangled.Derives name (part tokens start (stop - start))) ∧
        (((Chart.fill tangled tokens).tree? name start stop).isSome = true ↔
          ((Chart.fill tangled tokens).get? ⟨name, start, stop⟩).isSome = true))) ∧
      (∀ input start, tangled.start = some start →
        (((Chart.fill tangled (tangled.tokenise input)).get?
            ⟨start, 0, (tangled.tokenise input).length⟩).isSome = true →
          input ≠ "" → (tangled.membership input).derives start = true) ∧
        ((tangled.parse? input).isSome = true ↔
          tangled.Derives start (tangled.tokenise input))) ∧
      (tangled.start = none → ∀ input, tangled.parse? input = none) :=
  have wellFormed : tangled.WellFormed := fault?_eq_none_iff.mp (by decide)
  ⟨wellFormed, parse_exact tangled wellFormed⟩

end FormalLanguages.Grammar
