import FormalLanguages.Automaton.Completion
import FormalLanguages.Text.Pieces
import FormalLanguages.Text.Quoted

namespace FormalLanguages.Automaton.Table

/-! Automata are written as tables. The first line lists the labels of the
columns; every other line is the row of a state:

    0    1
    → s0 s0 s1
    * s1 s1 s1

An arrow marks the start state and a star an accepting one. A column holds one
target, or a set of targets in braces; `∅` by itself is no target, while the state
of that name is written in braces. What follows a `#` is a comment. -/

inductive ReadError where
  | missingAlphabet
  | missingState (line : Nat)
  | unclosedBrace (line : Nat)
  | unexpected (line : Nat) (character : Char)
  | tooManyColumns (line found expected : Nat)
  | duplicateState (line : Nat) (state : String)
  | missingStart
deriving DecidableEq, Repr

def ReadError.message : ReadError → String
  | missingAlphabet => "Table has no alphabet line"
  | missingState line => Text.onLine line "missing state name"
  | unclosedBrace line => Text.onLine line "unclosed '\x7b'"
  | unexpected line character => Text.onLine line ("unexpected " ++ Text.quotedCharacter character)
  | tooManyColumns line found expected => Text.onLine line
      (toString found ++ " columns given but the alphabet has " ++ toString expected)
  | duplicateState line state =>
      Text.onLine line ("state " ++ Text.quotedName state ++ " is listed twice")
  | missingStart => "No state is marked as the start state"

def openBrace : Char := '\x7b'

def closeBrace : Char := '\x7d'

def isNameCharacter (character : Char) : Bool :=
  !Text.isBlank character && character != openBrace && character != closeBrace

def isListSeparator (character : Char) : Bool := character == ',' || Text.isBlank character

def withoutComment (line : List Char) : List Char :=
  Text.trim (line.takeWhile (· ≠ '#'))

/-- One column is read off the text. The rest is shorter, so `columnsWithin` takes
no more steps than there are characters. -/
def column (line : Nat) (head : Char) (tail : List Char) :
    Except ReadError (List String × List Char) :=
  if head = openBrace then
    match Text.cutAt? [closeBrace] tail with
    | none => .error (.unclosedBrace line)
    | some (inside, rest) =>
        .ok ((Text.nonEmptyPieces isListSeparator inside).map String.ofList, rest)
  else if isNameCharacter head then
    let name := String.ofList (head :: tail.takeWhile isNameCharacter)
    let rest := tail.dropWhile isNameCharacter
    .ok (if name = emptySetName then [] else [name], rest)
  else
    .error (.unexpected line head)

def columnsWithin (line : Nat) : Nat → List Char → Except ReadError (List (List String))
  | 0, _ => .ok []
  | steps + 1, text =>
      match Text.trimStart text with
      | [] => .ok []
      | head :: tail => do
          let (targets, rest) ← column line head tail
          let others ← columnsWithin line steps rest
          return targets :: others

def columns (line : Nat) (text : List Char) : Except ReadError (List (List String)) :=
  columnsWithin line (text.length + 1) text

structure Row where
  state : String
  isStart : Bool
  isAccepting : Bool
  columns : List (List String)
deriving DecidableEq, Repr

def startMark : List Char := ['→']

def asciiStartMark : List Char := ['-', '>']

def acceptingMark : List Char := ['*']

def dropStartMark? (text : List Char) : Option (List Char) :=
  (Text.dropLeading? startMark text).orElse fun _ => Text.dropLeading? asciiStartMark text

def dropMark (rest? : Option (List Char)) (text : List Char) : List Char :=
  (rest?.map Text.trimStart).getD text

def row (line columnCount : Nat) (text : List Char) : Except ReadError Row := do
  let afterArrow? := dropStartMark? text
  let unarrowed := dropMark afterArrow? text
  let afterStar? := Text.dropLeading? acceptingMark unarrowed
  let unmarked := dropMark afterStar? unarrowed
  let name := unmarked.takeWhile fun character => !Text.isBlank character
  if name.isEmpty then
    throw (.missingState line)
  let found ← columns line (unmarked.drop name.length)
  if found.length > columnCount then
    throw (.tooManyColumns line found.length columnCount)
  return ⟨String.ofList name, afterArrow?.isSome, afterStar?.isSome, found⟩

/-- Rows are read in order, so the first faulty line is the one reported. -/
def rowsFrom (columnCount : Nat) (known : List String) :
    List (Nat × List Char) → Except ReadError (List Row)
  | [] => .ok []
  | (line, text) :: rest => do
      let first ← row line columnCount text
      if first.state ∈ known then
        throw (.duplicateState line first.state)
      let others ← rowsFrom columnCount (first.state :: known) rest
      return first :: others

def read (text : String) : Except ReadError Automaton := do
  match Text.numberedLines withoutComment text with
  | [] => throw .missingAlphabet
  | (_, header) :: body =>
      let labels := (Text.words header).map fun word => Label.ofText (String.ofList word)
      let rows ← rowsFrom labels.length [] body
      match rows.find? Row.isStart with
      | none => throw .missingStart
      | some start =>
          return ofRows start.state
            ((rows.filter Row.isAccepting).map Row.state)
            (labels.filterMap Label.symbol?)
            (rows.map fun row => (row.state, labels.zip row.columns))

end FormalLanguages.Automaton.Table
