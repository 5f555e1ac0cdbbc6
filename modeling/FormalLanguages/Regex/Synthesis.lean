import FormalLanguages.Automaton.Basic
import FormalLanguages.Name.Subscript
import FormalLanguages.Observation
import FormalLanguages.Regex.Printer

namespace FormalLanguages.Regex

/-! An automaton is built from an expression by wiring up a fragment for each
subexpression. The states are `s₀`, which is the start, `s₁`, which alone accepts,
and then `s₂`, `s₃`, … in the order in which fragments need them. -/

namespace Synthesis

/-- Where the fragment of a subexpression belongs: exactly between two states, or
beside other fragments as one of the alternatives between two states, or after
another fragment in a sequence. In a sequence it begins where the fragment before
it ended, and ends at the given state, or at a new one if others come after it. -/
inductive Place where
  | between (head tail : String)
  | beside (head tail : String)
  | after (tail? : Option String)

structure Builder where
  automaton : Automaton
  supply : Name.Supply
  reached : String
  steps : List (Step Automaton)

structure Ends where
  head : String
  tail : String

namespace Builder

def fresh (builder : Builder) : String × Builder :=
  let state := builder.supply.fresh
  (state, { builder with
    automaton := builder.automaton.declareState state
    supply := builder.supply.advance })

def freshEnds (builder : Builder) : Ends × Builder :=
  let (head, builder) := builder.fresh
  let (tail, builder) := builder.fresh
  (⟨head, tail⟩, builder)

def connect (builder : Builder) (source : String) (label : Label) (target : String) : Builder :=
  { builder with automaton := builder.automaton.withTransition source label target }

def skip (builder : Builder) (source target : String) : Builder :=
  builder.connect source .epsilon target

def openAt (builder : Builder) : Place → Ends × Builder
  | .between head tail => (⟨head, tail⟩, builder)
  | .beside _ _ => builder.freshEnds
  | .after (some tail) => (⟨builder.reached, tail⟩, builder)
  | .after none =>
      let (tail, next) := builder.fresh
      (⟨builder.reached, tail⟩, next)

def wiredDescription (regex : Regex) : String := "Wired " ++ regex.print

def closeAt (builder : Builder) (regex : Regex) (ends : Ends) (place : Place) : Builder :=
  let wired := { builder with
    steps := builder.steps ++ [Step.described builder.automaton (wiredDescription regex)] }
  match place with
  | .between _ _ => wired
  | .beside head tail => (wired.skip head ends.head).skip ends.tail tail
  | .after _ => { wired with reached := ends.tail }

end Builder

/-- Nested alternatives between the same two states, and nested sequences, make one
fragment together. -/
def wire : Regex → Place → Builder → Builder
  | alternative left right, .beside head tail, builder =>
      wire right (.beside head tail) (wire left (.beside head tail) builder)
  | alternative left right, place, builder =>
      let (ends, builder) := builder.openAt place
      let branches := wire left (.beside ends.head ends.tail) builder
      let branches := wire right (.beside ends.head ends.tail) branches
      branches.closeAt (alternative left right) ends place
  | sequence first second, .after tail?, builder =>
      wire second (.after tail?) (wire first (.after none) builder)
  | sequence first second, place, builder =>
      let (ends, builder) := builder.openAt place
      let chain := wire first (.after none) { builder with reached := ends.head }
      let chain := wire second (.after (some ends.tail)) chain
      chain.closeAt (sequence first second) ends place
  | star body, place, builder =>
      let (ends, builder) := builder.openAt place
      let (inner, builder) := builder.freshEnds
      let looped := wire body (.between inner.head inner.tail) builder
      let looped := (looped.skip ends.head inner.head).skip inner.tail ends.tail
      let looped := (looped.skip ends.head ends.tail).skip inner.tail inner.head
      looped.closeAt (star body) ends place
  | symbol name, place, builder =>
      let (ends, builder) := builder.openAt place
      (builder.connect ends.head (.symbol name) ends.tail).closeAt (symbol name) ends place
  | reference name, place, builder =>
      let (ends, builder) := builder.openAt place
      (builder.connect ends.head (.symbol name) ends.tail).closeAt (reference name) ends place
  | nil, place, builder =>
      let (ends, builder) := builder.openAt place
      (builder.skip ends.head ends.tail).closeAt nil ends place
  | empty, place, builder =>
      let (ends, builder) := builder.openAt place
      builder.closeAt empty ends place

def stateStem : String := "s"

end Synthesis

open Synthesis

def synthesise (regex : Regex) : Observed Automaton Automaton :=
  let supply : Name.Supply := ⟨stateStem, 0⟩
  let start := supply.fresh
  let accept := supply.advance.fresh
  let blank := ((Automaton.new start).withAccepting accept).withSymbols regex.symbols.toList
  let built := wire regex (.between start accept) ⟨blank, supply.advance.advance, start, []⟩
  ⟨built.automaton, built.steps⟩

end FormalLanguages.Regex
