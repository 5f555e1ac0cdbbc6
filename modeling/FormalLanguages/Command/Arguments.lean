import FormalLanguages.Name.Subscript
import FormalLanguages.Text.Pieces

namespace FormalLanguages

/-! What can be asked for on the command line. -/

inductive GrammarFormat where
  | utf8
  | latex
deriving DecidableEq, Repr

inductive Command where
  | determinise (file : String)
  | minimise (file : String)
  | product (left right : String)
  | sum (left right : String)
  | equivalent (left right : String)
  | toRegex (file : String)
  | fromRegex (regex : String)
  | matchRegex (regex input : String)
  | normalForm (file : String) (format : GrammarFormat)
  | membership (file input : String) (maxHeight : Option Nat)
  | parse (file input : String)
deriving DecidableEq, Repr

structure Invocation where
  command : Command
  showsSteps : Bool
deriving DecidableEq, Repr

namespace Invocation

/-- An argument that begins with a hyphen is an option, unless it is a hyphen and
nothing else. -/
def isOption (argument : String) : Bool :=
  argument ≠ "-" && argument.toList.head? = some '-'

def stepsFlag : String := "--steps"

def verboseFlag : String := "--verbose"

/-! `-v` may be given several times, also as `-vv`. -/

def isVerbose (argument : String) : Bool :=
  argument = verboseFlag ||
    match argument.toList with
    | '-' :: first :: rest => (first :: rest).all (· = 'v')
    | _ => false

def endOfOptions : String := "--"

/-- A file name cannot be empty. -/
def fileName? (argument : String) : Option String :=
  if argument = "" then none else some argument

def format? (argument : String) : Option GrammarFormat :=
  if argument = "utf8" then some .utf8
  else if argument = "latex" then some .latex
  else none

/-- Numbers are written in decimal, perhaps after a plus sign, and have 64 bits. -/
def number? (argument : String) : Option Nat :=
  let digits := match argument.toList with
    | '+' :: digits => digits
    | digits => digits
  let number := Nat.ofDigitChars 10 digits 0
  if digits.isEmpty || !digits.all Char.isDigit || number ≥ Name.numberLimit then none
  else some number

/-- Arguments after the name of a command: what they name, and the options that take
a value. No option may be given twice. -/
structure Given where
  showsSteps : Bool
  values : List String
  options : List (String × String)
deriving DecidableEq, Repr

def addOption (allowed : List String) (given : Given) (option value : String) : Option Given :=
  if option ∈ allowed && option ∉ given.options.map Prod.fst then
    some { given with options := given.options ++ [(option, value)] }
  else
    none

def cutAtEquals? (argument : String) : Option (String × String) :=
  (Text.cutAt? ['='] argument.toList).map fun (option, value) =>
    (String.ofList option, String.ofList value)

def readGiven (allowed : List String) (given : Given) : List String → Option Given
  | [] => some given
  | argument :: rest =>
      if !isOption argument then
        readGiven allowed { given with values := given.values ++ [argument] } rest
      else if argument = endOfOptions then
        some { given with values := given.values ++ rest }
      else if argument = stepsFlag then
        if given.showsSteps then none
        else readGiven allowed { given with showsSteps := true } rest
      else if isVerbose argument then
        readGiven allowed given rest
      else
        match cutAtEquals? argument with
        | some (option, value) => do
            let extended ← addOption allowed given option value
            readGiven allowed extended rest
        | none =>
            match rest with
            | [] => none
            | value :: rest =>
                if isOption value then none
                else do
                  let extended ← addOption allowed given argument value
                  readGiven allowed extended rest

def formatOption : String := "--format"

def maxHeightOption : String := "--max-height"

def allowedOptions (name : String) : List String :=
  if name = "cnf" then [formatOption]
  else if name = "cyk" then [maxHeightOption]
  else []

def commandNames : List String :=
  ["determinize", "minimize", "product", "sum", "equivalent", "to-regex", "from-regex",
    "match-regex", "cnf", "cyk", "parse"]

/-- An option that is not given has its default; a bad value is refused. -/
def readOption {α : Type} (given : Given) (option : String) (read : String → Option α)
    (default : α) : Option α :=
  match given.options.find? fun entry => entry.1 = option with
  | none => some default
  | some (_, value) => read value

def oneFile (build : String → Command) : List String → Option Command
  | [file] => (fileName? file).map build
  | _ => none

def twoFiles (build : String → String → Command) : List String → Option Command
  | [left, right] => do
      let left ← fileName? left
      let right ← fileName? right
      return build left right
  | _ => none

def fileAndInput (build : String → String → Command) : List String → Option Command
  | [file, input] => (fileName? file).map fun file => build file input
  | _ => none

def command? (name : String) (given : Given) : Option Command := do
  match name with
  | "determinize" => oneFile .determinise given.values
  | "minimize" => oneFile .minimise given.values
  | "product" => twoFiles .product given.values
  | "sum" => twoFiles .sum given.values
  | "equivalent" => twoFiles .equivalent given.values
  | "to-regex" => oneFile .toRegex given.values
  | "from-regex" =>
      match given.values with
      | [regex] => return .fromRegex regex
      | _ => none
  | "match-regex" =>
      match given.values with
      | [regex, input] => return .matchRegex regex input
      | _ => none
  | "cnf" =>
      let format ← readOption given formatOption format? .utf8
      oneFile (.normalForm · format) given.values
  | "cyk" =>
      let maxHeight ← readOption given maxHeightOption (fun value => (number? value).map some) none
      fileAndInput (.membership · · maxHeight) given.values
  | "parse" => fileAndInput .parse given.values
  | _ => none

/-- Before the name of the command there are only flags. -/
def readFrom (showsSteps : Bool) : List String → Option Invocation
  | [] => none
  | argument :: rest =>
      if argument ∈ commandNames then do
        let given ← readGiven (allowedOptions argument) ⟨false, [], []⟩ rest
        let command ← command? argument given
        return ⟨command, showsSteps || given.showsSteps⟩
      else if argument = stepsFlag then
        if showsSteps then none else readFrom true rest
      else if isVerbose argument then
        readFrom showsSteps rest
      else
        none

def read (arguments : List String) : Option Invocation := readFrom false arguments

end Invocation

end FormalLanguages
