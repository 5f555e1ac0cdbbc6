import FormalLanguages.Proofs.Grammar.NormalForm.Binary
import FormalLanguages.Proofs.Grammar.NormalForm.EmptyFree
import FormalLanguages.Proofs.Grammar.NormalForm.Lifted
import FormalLanguages.Proofs.Grammar.NormalForm.UnitFree

namespace FormalLanguages.Grammar

/-! # Each pass on its own

The passes do not rely on one another: each one takes any grammar, whatever is tangled in it,
to one for the same language that has the shape that the pass is for. -/

variable {grammar after : Grammar}

/-- All non-terminals that were there before derive what they derived. -/
structure SameLanguage (before after : Grammar) : Prop where
  start : after.start = before.start
  accepts : ∀ word, after.Accepts word ↔ before.Accepts word
  derives : ∀ name, name ∈ before.nonTerminals → ∀ word,
    (after.Derives name word ↔ before.Derives name word)

/-- Sequences that are not empty are derived as before. The empty one is left to the start
symbol, which has one alternative `ε` for it exactly if it derived it before. -/
structure EmptyRemoved (before after : Grammar) : Prop where
  start : after.start = before.start
  accepts : ∀ word, after.Accepts word ↔ before.Accepts word
  derivesStart : ∀ start, before.start = some start → ∀ word,
    (after.Derives start word ↔ before.Derives start word)
  derives : ∀ name word, word ≠ [] → (after.Derives name word ↔ before.Derives name word)
  solid : ∀ head alternative, alternative ∈ after.alternatives head →
    alternative = [.empty] ∧ before.start = some head ∨ alternative ≠ [] ∧ .empty ∉ alternative
  nullable : ∀ start, before.start = some start →
    ([.empty] ∈ after.alternatives start ↔ before.Derives start [])
  once : ∀ start, before.start = some start → (after.alternatives start).count [.empty] ≤ 1

section WellFormed

variable (wellFormed : grammar.WellFormed)

include wellFormed

theorem WellFormed.sameLanguage (start : after.start = grammar.start)
    (derives : ∀ name, name ∈ grammar.nonTerminals → ∀ word,
      (after.Derives name word ↔ grammar.Derives name word)) : SameLanguage grammar after where
  start := start
  accepts := accepts_iff_of_start start fun name isStart =>
    derives name (wellFormed.start name isStart)
  derives := derives

theorem WellFormed.emptyRemoved : EmptyRemoved grammar grammar.emptyFree.grammar where
  start := EmptyFree.start_result
  accepts := accepts_iff_of_start EmptyFree.start_result
    fun _ isStart _ => wellFormed.derives_start_emptyFree_iff isStart
  derivesStart _ isStart _ := wellFormed.derives_start_emptyFree_iff isStart
  derives _ _ nonempty := wellFormed.derives_emptyFree_iff nonempty
  solid head alternative member := by
    rcases wellFormed.alternative_emptyFree member with ⟨same, isStart⟩ | ⟨filled, solid, _⟩
    · exact .inl ⟨same, isStart⟩
    · exact .inr ⟨filled, fun empty => Bool.noConfusion (solid .empty empty)⟩
  nullable _ isStart := wellFormed.mem_emptyAlternative_iff isStart
  once _ isStart := List.nodup_iff_count_le_one.mp (EmptyFree.nodup_alternatives_start isStart) _

end WellFormed

/-- Each pass alone keeps what is derived and gives its shape to every alternative, those of
new non-terminals included. -/
theorem single_passes_exact (grammar : Grammar) (wellFormed : grammar.WellFormed) :
    (SameLanguage grammar grammar.binary.grammar ∧
      ∀ head alternative, alternative ∈ grammar.binary.grammar.alternatives head →
        alternative.length ≤ 2) ∧
    EmptyRemoved grammar grammar.emptyFree.grammar ∧
    (SameLanguage grammar grammar.unitFree.grammar ∧
      ∀ head name, [.nonTerminal name] ∉ grammar.unitFree.grammar.alternatives head) ∧
    SameLanguage grammar grammar.lifted.grammar ∧
      ∀ head alternative, alternative ∈ grammar.lifted.grammar.alternatives head →
        2 ≤ alternative.length → ∀ name, .terminal name ∉ alternative := by
  refine ⟨⟨?_, ?_⟩, wellFormed.emptyRemoved, ⟨?_, ?_⟩, ?_, ?_⟩
  · exact wellFormed.sameLanguage wellFormed.visited_binary.grows.start
      fun _ declared _ => wellFormed.derives_binary_iff declared
  · exact fun _ _ => wellFormed.length_alternative_binary
  · exact wellFormed.sameLanguage UnitFree.rewritten_inlineUnits.start
      fun _ _ _ => derives_unitFree_iff
  · exact fun _ _ => not_mem_unit_inlineUnits
  · exact wellFormed.sameLanguage wellFormed.extends_lifted.start
      fun _ declared _ => wellFormed.derives_lifted_iff declared
  · exact fun _ _ member long _ => wellFormed.not_terminal_lifted member long

/-- Besides a cycle of units through `ε`, names are taken that the passes would choose, and
one of them stands for `a` already. -/
def crowded : Grammar where
  nonTerminals := DeclaredSet.ofList ["S", "A", "N", "S₁", "T", "B"]
  terminals := DeclaredSet.ofList ["a", "b", "S₂"]
  productions := DeclaredMap.ofList
    [("S", [[.nonTerminal "A"], [.terminal "a", .empty, .nonTerminal "S", .terminal "b"], [.empty]]),
      ("A", [[.nonTerminal "S"], [.nonTerminal "N", .terminal "S₂", .empty], [.nonTerminal "T"]]),
      ("N", [[], [.nonTerminal "N", .nonTerminal "N"]]),
      ("S₁", [[.nonTerminal "B", .nonTerminal "S₁", .nonTerminal "N"], [.nonTerminal "S₁"]]),
      ("T", [[.terminal "a"]]), ("B", [[.terminal "b", .terminal "b"], []])]
  start := some "S"

theorem single_passes_crowded :
    crowded.WellFormed ∧
      (SameLanguage crowded crowded.binary.grammar ∧
        ∀ head alternative, alternative ∈ crowded.binary.grammar.alternatives head →
          alternative.length ≤ 2) ∧
      EmptyRemoved crowded crowded.emptyFree.grammar ∧
      (SameLanguage crowded crowded.unitFree.grammar ∧
        ∀ head name, [.nonTerminal name] ∉ crowded.unitFree.grammar.alternatives head) ∧
      SameLanguage crowded crowded.lifted.grammar ∧
        ∀ head alternative, alternative ∈ crowded.lifted.grammar.alternatives head →
          2 ≤ alternative.length → ∀ name, .terminal name ∉ alternative :=
  have wellFormed : crowded.WellFormed := fault?_eq_none_iff.mp (by decide)
  ⟨wellFormed, single_passes_exact crowded wellFormed⟩

end FormalLanguages.Grammar
