import FormalLanguages.Automaton.Simulation
import FormalLanguages.Grammar.Membership
import FormalLanguages.Proofs.Text.Segmentation

namespace FormalLanguages.Text

/-! # Inputs

Inputs of automata and of grammars are cut into the symbols that these declare, by one rule. -/

/-- What a way of cutting inputs into declared symbols owes to its users. -/
structure CutsLongestFirst (symbols : List String) (cut : String → List String) : Prop where
  cuts : ∀ input pieces, Cuts symbols input pieces ↔ pieces = cut input
  filled : ∀ input piece, piece ∈ cut input → piece ≠ ""
  whole : ∀ input, concatenated (cut input) = input
  inverse : Unambiguous (symbols.map String.toList) → ∀ word,
    (∀ symbol, symbol ∈ word → symbol ∈ symbols ∧ symbol ≠ "") → cut (concatenated word) = word

theorem cutsLongestFirst_split (symbols : List String) :
    CutsLongestFirst symbols (split symbols) where
  cuts _ _ := cuts_iff
  filled _ := (cuts_iff.mpr rfl).filled
  whole _ := (cuts_iff.mpr rfl).concatenated_eq
  inverse unambiguous word all :=
    split_of_flatMap unambiguous all (toList_concatenated word)

/-- Automata and grammars cut every input, whatever symbols they declare. Nothing of it is lost, no
piece is empty, and each piece is the longest symbol at its place or a character where no symbol
fits. If no symbol begins another, symbols that are put together are found again, so that an
automaton accepts the text exactly if it accepts the symbols. -/
theorem inputs_cut_longest_first :
    (∀ automaton : Automaton, CutsLongestFirst automaton.alphabet.toList automaton.split ∧
      (Unambiguous (automaton.alphabet.toList.map String.toList) → ∀ word,
        (∀ symbol, symbol ∈ word → symbol ∈ automaton.alphabet ∧ symbol ≠ "") →
        automaton.acceptsText (concatenated word) = automaton.accepts word)) ∧
    ∀ grammar : Grammar, CutsLongestFirst grammar.terminals.toList grammar.tokenise := by
  refine ⟨fun automaton => ?_, fun grammar => cutsLongestFirst_split grammar.terminals.toList⟩
  have cuts : CutsLongestFirst automaton.alphabet.toList automaton.split :=
    cutsLongestFirst_split automaton.alphabet.toList
  refine ⟨cuts, fun unambiguous word all => ?_⟩
  rw [Automaton.acceptsText, cuts.inverse unambiguous word all]

/-- Symbols of several bytes to a character, and the empty one. -/
def wideSymbols : Automaton :=
  .ofRows "s" ["t"] ["", "é→", "ab", "b"]
    [("s", [(.symbol "ab", ["t"])]), ("t", [(.symbol "é→", ["s"]), (.symbol "b", ["t"])])]

theorem inputs_cut_longest_first_wideSymbols :
    Unambiguous (wideSymbols.alphabet.toList.map String.toList) ∧
      (∀ symbol, symbol ∈ ["ab", "é→", "ab", "b"] → symbol ∈ wideSymbols.alphabet ∧ symbol ≠ "") ∧
      wideSymbols.split "abé→abb" = ["ab", "é→", "ab", "b"] ∧
      wideSymbols.acceptsText "abé→abb" = wideSymbols.accepts ["ab", "é→", "ab", "b"] := by
  have unambiguous : ∀ symbol, symbol ∈ wideSymbols.alphabet.toList.map String.toList →
      symbol ≠ [] → ∀ other, other ∈ wideSymbols.alphabet.toList.map String.toList →
        symbol <+: other → symbol = other := by decide
  have declared : ∀ symbol, symbol ∈ ["ab", "é→", "ab", "b"] →
      symbol ∈ wideSymbols.alphabet ∧ symbol ≠ "" := by decide
  have joined : concatenated ["ab", "é→", "ab", "b"] = "abé→abb" := by decide
  rcases inputs_cut_longest_first.1 wideSymbols with ⟨cuts, accepted⟩
  have parted := cuts.inverse unambiguous _ declared
  have accepts := accepted unambiguous _ declared
  rw [joined] at parted accepts
  exact ⟨unambiguous, declared, parted, accepts⟩

end FormalLanguages.Text
