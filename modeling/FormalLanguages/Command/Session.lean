import FormalLanguages.Automaton.Minimal
import FormalLanguages.Automaton.Table.Printer
import FormalLanguages.Automaton.Table.Reader
import FormalLanguages.Command.Arguments
import FormalLanguages.Grammar.Chart
import FormalLanguages.Grammar.Latex
import FormalLanguages.Grammar.LineFormat
import FormalLanguages.Regex.Elimination
import FormalLanguages.Regex.Matching
import FormalLanguages.Regex.Parser
import FormalLanguages.Regex.Synthesis

namespace FormalLanguages

/-! Carrying out a command. What has been printed before a command fails stays
printed, and steps are numbered over the whole command. -/

structure Session where
  printed : String
  stepCount : Nat

namespace Session

abbrev Run := ExceptT String (StateM Session)

def print (text : String) : Run Unit :=
  modify fun session => { session with printed := session.printed ++ text }

def printLine (text : String) : Run Unit := print (text ++ "\n")

def printStep {σ : Type} (display : σ → String) (step : Step σ) : Run Unit := do
  modify fun session => { session with stepCount := session.stepCount + 1 }
  let session ← get
  printLine ("# Step " ++ toString session.stepCount ++ "\n" ++ step.render display ++ "\n")

def printSteps {σ : Type} (shows : Bool) (display : σ → String) (steps : List (Step σ)) :
    Run Unit :=
  if shows then steps.forM (printStep display) else pure ()

/-! Failures say what was being done, and why it could not be done. -/

def require {ε α : Type} (doing : String) (message : ε → String) : Except ε α → Run α
  | .ok value => pure value
  | .error error => throw (doing ++ ": " ++ message error)

abbrev Files := String → Option String

def readFile (files : Files) (name : String) : Run String :=
  match files name with
  | none => throw ("Error reading " ++ name)
  | some content => pure content

def readTable (files : Files) (name : String) : Run Automaton := do
  let content ← readFile files name
  require ("Error parsing transition table " ++ name) Automaton.Table.ReadError.message
    (Automaton.Table.read content)

def readGrammar (files : Files) (name : String) : Run Grammar := do
  let content ← readFile files name
  require ("Error parsing grammar " ++ name) Grammar.ParseError.message (Grammar.parse content)

def readRegex (text : String) : Run Regex :=
  require ("Error parsing regular expression " ++ Text.quotedName text) Regex.ParseError.message
    (Regex.parse text)

def printAutomaton (automaton : Automaton) : Run Unit := printLine (Automaton.Table.print automaton)

def determinise (shows : Bool) (automaton : Automaton) : Run Automaton := do
  let observed ← require "Error determinizing automaton" Automaton.faultsMessage
    automaton.determinise
  printSteps shows Automaton.Table.print observed.steps
  return observed.result

def minimise (shows : Bool) (automaton : Automaton) : Run Automaton := do
  let observed ← require "Error minimising automaton" Automaton.StateEquivalence.Refusal.message
    automaton.minimise
  printSteps shows Automaton.Table.print observed.steps
  return observed.result

def combine (doing : String) (shows : Bool) (acceptance : Automaton.Product.Acceptance)
    (files : Files) (left right : String) : Run Unit := do
  let leftAutomaton ← readTable files left
  let rightAutomaton ← readTable files right
  let observed ← require doing Automaton.Product.Refusal.message
    (Automaton.combine acceptance leftAutomaton rightAutomaton)
  printSteps shows Automaton.Table.print observed.steps
  printAutomaton observed.result

def truthText (truth : Bool) : String := if truth then "true" else "false"

def compare (shows : Bool) (files : Files) (left right : String) : Run Unit := do
  let leftAutomaton ← readTable files left
  let rightAutomaton ← readTable files right
  let doing := "Error comparing automata"
  if shows then
    let refinement ← require doing Automaton.StateEquivalence.Refusal.message
      (Automaton.crossEquivalence leftAutomaton rightAutomaton)
    printSteps true Automaton.StateEquivalence.Table.print refinement.steps
    printLine refinement.result.print
  let equivalent ← require doing Automaton.StateEquivalence.Refusal.message
    (Automaton.equivalent leftAutomaton rightAutomaton)
  printLine (truthText equivalent)

def toRegex (shows : Bool) (files : Files) (file : String) : Run Unit := do
  let automaton ← readTable files file
  let observed ← require "Error extracting regular expression" Automaton.faultsMessage
    automaton.toRegex
  printSteps shows Regex.Graph.print observed.steps
  printLine (observed.result.getD .empty).print

def normalForm (shows : Bool) (files : Files) (file : String) (format : GrammarFormat) :
    Run Unit := do
  let grammar ← readGrammar files file
  let progress := grammar.chomsky
  printSteps shows Grammar.print progress.steps
  match format with
  | .utf8 => print progress.grammar.print
  | .latex => printLine progress.grammar.latex

def membership (shows : Bool) (files : Files) (file input : String) (maxHeight : Option Nat) :
    Run Unit := do
  let grammar ← readGrammar files file
  let table := grammar.membership input
  if shows then
    printSteps true Grammar.Table.print (grammar.membershipSteps input)
  printLine (table.latex (maxHeight.getD table.input.length))

def parse (files : Files) (file input : String) : Run Unit := do
  let grammar ← readGrammar files file
  match grammar.parse? input with
  | none => throw (Text.quotedName input ++ " is not in the language of the grammar")
  | some tree => printLine tree.print

def carryOut (files : Files) (shows : Bool) : Command → Run Unit
  | .determinise file => do
      printAutomaton (← determinise shows (← readTable files file))
  | .minimise file => do
      let automaton ← readTable files file
      if automaton.isDeterministic then
        printAutomaton (← minimise shows automaton)
      else
        printAutomaton (← minimise shows (← determinise shows automaton))
  | .product left right => combine "Error intersecting automata" shows .both files left right
  | .sum left right => combine "Error joining automata" shows .either files left right
  | .equivalent left right => compare shows files left right
  | .toRegex file => toRegex shows files file
  | .fromRegex text => do
      let regex ← readRegex text
      let observed := regex.synthesise
      printSteps shows Automaton.Table.print observed.steps
      printAutomaton observed.result
  | .matchRegex text input => do
      let regex ← readRegex text
      printLine (truthText (regex.test input))
  | .normalForm file format => normalForm shows files file format
  | .membership file input maxHeight => membership shows files file input maxHeight
  | .parse file input => parse files file input

end Session

/-- The outcome of a run of the program. A wrong use of the command line ends with
code 2, and a command that fails with code 1. -/
structure Outcome where
  exitCode : Nat
  output : String
  complaint : String
deriving DecidableEq, Repr

namespace Invocation

def usage : String :=
  "Usage: [--steps] [-v] COMMAND ..., where COMMAND is one of " ++ Text.naturalList commandNames

def run (arguments : List String) (files : Session.Files) : Outcome :=
  match read arguments with
  | none => ⟨2, "", usage⟩
  | some invocation =>
      let (result, session) :=
        (Session.carryOut files invocation.showsSteps invocation.command).run ⟨"", 0⟩
      match result with
      | .ok () => ⟨0, session.printed, ""⟩
      | .error complaint => ⟨1, session.printed, complaint⟩

end Invocation

/-- The files that a command reads. -/
def Command.files : Command → List String
  | determinise file => [file]
  | minimise file => [file]
  | product left right => [left, right]
  | sum left right => [left, right]
  | equivalent left right => [left, right]
  | toRegex file => [file]
  | fromRegex _ => []
  | matchRegex _ _ => []
  | normalForm file _ => [file]
  | membership file _ _ => [file]
  | parse file _ => [file]

end FormalLanguages
