import FormalLanguages.Proofs.Automaton.Combination
import FormalLanguages.Proofs.Automaton.Determinisation

namespace FormalLanguages.Automaton

/-! # Combining what has been determinised

The names of sets hold commas, so `a,b` with `c` and `a` with `b,c` are two pairs of one
name. Where both pairs are met, the combined automaton takes them for one state. Where
pairs do not share names, it accepts what the given automata accept together. -/

open Product

variable {left right : Automaton}

theorem distinct_of_nodup (totalLeft : left.Total) (totalRight : right.Total)
    (nodup : ((reached left right).map name).Nodup) : Distinct left right := by
  have met {pair : Pair} (meet : left.Meet right pair.1 pair.2) : pair ∈ reached left right :=
    (mem_reached_iff totalLeft.valid totalLeft.deterministic totalRight.deterministic).mpr meet
  exact fun first second inFirst inSecond =>
    List.inj_on_of_nodup_map nodup (met inFirst) (met inSecond)

/-- Two valid automata over one alphabet can be determinised and then combined. If no two
pairs of states that some word leads to share a name, the result is complete and deterministic
and accepts what both of the given automata accept, or what either of them does. -/
theorem combine_determinised (acceptance : Acceptance) (left right : Automaton)
    (validLeft : left.isValid = true) (validRight : right.isValid = true)
    (alphabet : left.alphabet = right.alphabet) (loud : ¬ Label.epsilonText ∈ left.alphabet) :
    ∃ first second observed, left.determinise = .ok first ∧ right.determinise = .ok second ∧
      combine acceptance first.result second.result = .ok observed ∧
      (Distinct first.result second.result →
        observed.result.isComplete = true ∧
        ∀ word, observed.result.accepts word =
          acceptance.holds (left.accepts word) (right.accepts word)) := by
  have loudRight : ¬ Label.epsilonText ∈ right.alphabet := alphabet ▸ loud
  have totalLeft := total_determinised loud
  have totalRight := total_determinised loudRight
  have soundLeft := total_iff.mp totalLeft
  have soundRight := total_iff.mp totalRight
  have same : (Subset.construct left).result.alphabet = (Subset.construct right).result.alphabet := by
    rw [Subset.alphabet_result loud, Subset.alphabet_result loudRight, alphabet]
  refine ⟨Subset.construct left, Subset.construct right, _, determinise_eq validLeft,
    determinise_eq validRight,
    combine_eq soundLeft.1 soundLeft.2 soundRight.1 soundRight.2 same, fun distinct => ?_⟩
  have combines : Combines acceptance _ _ _ :=
    combines_construct totalLeft.valid totalLeft.deterministic totalRight.deterministic
  refine ⟨(total_iff.mp (combines.total totalLeft totalRight same distinct)).2, fun word => ?_⟩
  rw [combines.accepts_eq totalLeft totalRight same distinct,
    Subset.accepts_result loud (isValid_iff.mp validLeft),
    Subset.accepts_result loudRight (isValid_iff.mp validRight)]

/-- Words with a `y`, with a silent edge and a set of two states. -/
def silentStart : Automaton :=
  ofRows "a" ["c"] ["x", "y"]
    [("a", [(.epsilon, ["b"]), (.symbol "x", ["a"])]), ("b", [(.symbol "y", ["c"])]),
      ("c", [(.symbol "x", ["c"]), (.symbol "y", ["c"])])]

/-- Words that end in `x`, guessed. -/
def guessedEnd : Automaton :=
  ofRows "p" ["q"] ["x", "y"]
    [("p", [(.symbol "x", ["p", "q"]), (.symbol "y", ["p"])]), ("q", [])]

theorem combine_determinised_silentStart :
    silentStart.isValid = true ∧ guessedEnd.isValid = true ∧
      silentStart.alphabet = guessedEnd.alphabet ∧ ¬ Label.epsilonText ∈ silentStart.alphabet ∧
      ∃ first second observed, silentStart.determinise = .ok first ∧
        guessedEnd.determinise = .ok second ∧
        combine .both first.result second.result = .ok observed ∧
        Distinct first.result second.result ∧
        observed.result.isComplete = true ∧
        ∀ word, observed.result.accepts word =
          Acceptance.both.holds (silentStart.accepts word) (guessedEnd.accepts word) := by
  have nodup : ((reached (Subset.construct silentStart).result
      (Subset.construct guessedEnd).result).map name).Nodup := by decide +kernel
  have distinct := distinct_of_nodup (total_determinised (by decide)) (total_determinised (by decide))
    nodup
  rcases combine_determinised .both silentStart guessedEnd (by decide) (by decide) (by decide)
    (by decide) with ⟨first, second, observed, foundFirst, foundSecond, combined, exact⟩
  cases foundFirst.symm.trans (determinise_eq (by decide))
  cases foundSecond.symm.trans (determinise_eq (by decide))
  exact ⟨by decide, by decide, by decide, by decide, _, _, observed, foundFirst, foundSecond,
    combined, distinct, exact distinct⟩

/-! ## A shared name -/

/-- After `x` it may be in `a` or in `b`, and after `y` it is in `a`. -/
def sharingLeft : Automaton :=
  ofRows "p" ["b"] ["x", "y"]
    [("p", [(.symbol "x", ["a", "b"]), (.symbol "y", ["a"])]), ("a", []),
      ("b", [(.symbol "x", ["b"])])]

/-- After `x` it is in `c`, and after `y` it may be in `b` or in `c`. -/
def sharingRight : Automaton :=
  ofRows "q" ["c"] ["x", "y"]
    [("q", [(.symbol "x", ["c"]), (.symbol "y", ["b", "c"])]), ("b", []), ("c", [])]

/-- The pairs after `x` and after `y` are both called `(a,b,c)`. The result has a choice there,
and accepts a word that one of the automata does not. -/
theorem product_determinised_sharedName :
    sharingLeft.isValid = true ∧ sharingRight.isValid = true ∧
      sharingLeft.alphabet = sharingRight.alphabet ∧ ¬ Label.epsilonText ∈ sharingLeft.alphabet ∧
      ∃ first second observed, sharingLeft.determinise = .ok first ∧
        sharingRight.determinise = .ok second ∧
        product first.result second.result = .ok observed ∧
        observed.result.isComplete = false ∧
        observed.result.accepts ["y"] = true ∧ sharingLeft.accepts ["y"] = false := by
  have loudLeft : ¬ Label.epsilonText ∈ sharingLeft.alphabet := by decide
  have loudRight : ¬ Label.epsilonText ∈ sharingRight.alphabet := by decide
  have soundLeft := total_iff.mp (total_determinised loudLeft)
  have soundRight := total_iff.mp (total_determinised loudRight)
  refine ⟨by decide, by decide, by decide, loudLeft, _, _, _, determinise_eq (by decide),
    determinise_eq (by decide),
    combine_eq soundLeft.1 soundLeft.2 soundRight.1 soundRight.2 ?_, ?_, ?_, ?_⟩
  · rw [Subset.alphabet_result loudLeft, Subset.alphabet_result loudRight]
    decide
  · decide +kernel
  · decide +kernel
  · decide +kernel

end FormalLanguages.Automaton
