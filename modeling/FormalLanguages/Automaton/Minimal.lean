import FormalLanguages.Automaton.StateEquivalence

namespace FormalLanguages.Automaton

/-! The smallest complete deterministic automaton for a language: unreachable
states are dropped, missing transitions go to a dead state, and each class of
equivalent states becomes one state. -/

namespace Minimal

def className (members : SortedSet String) : String := Text.concatenated members.toList

/-! Concatenated names may collide, as those of `a` with `bc` and of `ab` with `c`;
a later class then counts its name up. -/

abbrev Naming := List (SortedSet String × String)

def assign (naming : Naming) (members : SortedSet String) : Naming :=
  naming ++ [(members, Name.freshOrSelf (className members) (naming.map Prod.snd))]

def naming (classes : List (SortedSet String)) : Naming := classes.foldl assign []

def nameOf (naming : Naming) (state : String) : String :=
  ((naming.find? fun entry => state ∈ entry.1).map Prod.snd).getD state

/-- All members of a class go to equivalent states, so the edges of its first
member stand for those of the others. -/
def addClass (automaton : Automaton) (nameOf : String → String) (built : Automaton)
    (members : SortedSet String) : Automaton :=
  match members.toList with
  | [] => built
  | representative :: _ =>
      let source := nameOf representative
      let declared := built.declareState source
      let marked :=
        if automaton.isAccepting representative then declared.withAccepting source else declared
      automaton.alphabet.toList.foldl (fun built symbol =>
        match automaton.target? representative (.symbol symbol) with
        | none => built
        | some target => built.withTransition source (.symbol symbol) (nameOf target))
        marked

def merged (automaton : Automaton) (classes : List (SortedSet String)) : Automaton :=
  let nameOf := nameOf (naming classes)
  let start := (new (nameOf automaton.starting)).withSymbols automaton.alphabet.toList
  classes.foldl (addClass automaton nameOf) start

def prunedDescription (sink : Option String) : String :=
  match sink with
  | some sink => "Removed unreachable states and added the dead state " ++ sink
  | none => "Removed unreachable states"

def mergedDescription : String := "Merged equivalent states"

/-- Neither pruning nor completing can make a sound deterministic automaton unsound,
so the states of the completed one are compared without further checks. -/
def construct (automaton : Automaton) : Observed Automaton Automaton :=
  let ⟨complete, sink⟩ := automaton.withoutUnreachable.completed
  let result := merged complete complete.stateRefinement.result.classes
  { result
    steps := [
      Step.described complete (prunedDescription sink),
      Step.described result mergedDescription] }

end Minimal

def minimise (automaton : Automaton) :
    Except StateEquivalence.Refusal (Observed Automaton Automaton) := do
  StateEquivalence.requireDeterministic .left automaton
  return Minimal.construct automaton

end FormalLanguages.Automaton
