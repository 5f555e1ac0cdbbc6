import FormalLanguages.Grammar.NormalForm.Chomsky
import FormalLanguages.Name.StartFirst
import FormalLanguages.Text.Segmentation

namespace FormalLanguages.Grammar

/-! Which non-terminals derive which parts of an input, in a table that is filled
from the shortest parts to the longest. -/

def tokenise (grammar : Grammar) (input : String) : List String :=
  Text.split grammar.terminals.toList input

/-- The first row of a table is for single tokens. A table that is not filled yet
has fewer rows, or a last row that is too short. -/
abbrev Cell := SortedSet String

structure Table where
  input : List String
  rows : List (List Cell)
deriving DecidableEq

namespace Table

def get? (table : Table) (start length : Nat) : Option Cell :=
  if length = 0 then none else (table.rows[length - 1]?).bind fun row => row[start]?

def substring (table : Table) (start length : Nat) : String :=
  Text.concatenated ((table.input.drop start).take length)

def derives (table : Table) (nonTerminal : String) : Bool :=
  (table.get? 0 table.input.length).any (nonTerminal ∈ ·)

/-! ### Printing -/

def cellsOfLength (table : Table) (length : Nat) : List (Option Cell) :=
  (List.range (table.input.length + 1 - length)).map fun start => table.get? start length

/-- Lengths from the longest to one. -/
def lengthsFrom : Nat → List Nat
  | 0 => []
  | length + 1 => (length + 1) :: lengthsFrom length

def cellText : Option Cell → String
  | none => "·"
  | some cell =>
      if cell.isEmpty then "∅" else "\x7b" ++ Text.joined "," cell.toList ++ "\x7d"

def print (table : Table) : String :=
  let rows := (lengthsFrom table.input.length).map fun length =>
    Text.joined " " ((table.cellsOfLength length).map cellText) ++ "\n"
  Text.concatenated rows ++ Text.joined " " table.input ++ "\n"

def latexCell : Option Cell → String
  | none => "∅"
  | some cell =>
      if cell.isEmpty then "∅" else "\\\x7b" ++ Text.joined ", " cell.toList ++ "\\\x7d"

/-- Rows for parts longer than `height` are left out. -/
def latex (table : Table) (height : Nat) : String :=
  let rows := (lengthsFrom (min height table.input.length)).map fun length =>
    "\t" ++ Text.joined " & " ((table.cellsOfLength length).map latexCell) ++ " \\\\\n"
  let tokens := table.input.map fun token => "\\text\x7b" ++ token ++ "\x7d"
  "\\begin\x7barray\x7d\x7bc\x7d\n" ++ Text.concatenated rows ++
    "\t\\hline\n\t" ++ Text.joined " & " tokens ++ "\n\\end\x7barray\x7d"

end Table

namespace Membership

/-- A single token is derived by the non-terminals that have it as an alternative. -/
def terminalHeads (grammar : Grammar) (token : String) : Cell :=
  SortedSet.ofList ((grammar.productions.entries.filter fun production =>
    [.terminal token] ∈ production.2).map Prod.fst)

/-- Two neighbouring parts together are derived by the non-terminals that have an
alternative of one non-terminal from each. -/
def isPair (left right : Cell) : Alternative → Bool
  | [.nonTerminal first, .nonTerminal second] => first ∈ left && second ∈ right
  | _ => false

def pairHeads (grammar : Grammar) (left right : Cell) : List String :=
  (grammar.productions.entries.filter fun production =>
    production.2.any (isPair left right)).map Prod.fst

def splitHeads (grammar : Grammar) (shorter : Table) (start length split : Nat) : List String :=
  match shorter.get? start split, shorter.get? (start + split) (length - split) with
  | some left, some right => pairHeads grammar left right
  | _, _ => []

def longCell (grammar : Grammar) (shorter : Table) (length start : Nat) : Cell :=
  SortedSet.ofList ((List.range' 1 (length - 1)).flatMap
    (splitHeads grammar shorter start length))

def cell (grammar : Grammar) (shorter : Table) (length start : Nat) : Cell :=
  if length = 1 then
    ((shorter.input[start]?).map (terminalHeads grammar)).getD ∅
  else
    longCell grammar shorter length start

def row (grammar : Grammar) (shorter : Table) (length : Nat) : List Cell :=
  (List.range (shorter.input.length + 1 - length)).map (cell grammar shorter length)

def fillUpTo (grammar : Grammar) (input : List String) : (length : Nat) → Table
  | 0 => ⟨input, []⟩
  | length + 1 =>
      let shorter := fillUpTo grammar input length
      { shorter with rows := shorter.rows ++ [row grammar shorter (length + 1)] }

def fill (grammar : Grammar) (input : List String) : Table :=
  fillUpTo grammar input input.length

/-! Cells are filled row by row, and from left to right in a row. -/

def withLastRow (table : Table) (fullRows lastCells : Nat) : Table :=
  let last := ((table.rows[fullRows]?).getD []).take lastCells
  { table with rows := table.rows.take fullRows ++ [last] }

def description (table : Table) (start : Option String) (position length : Nat) : String :=
  let names := ((table.get? position length).map SortedSet.toList).getD []
  let shown := if names.isEmpty then "∅" else Text.naturalList (Name.startFirst names start)
  table.substring position length ++ ": " ++ shown

def rowSteps (table : Table) (start : Option String) (length : Nat) : List (Step Table) :=
  (List.range (table.input.length + 1 - length)).map fun position =>
    Step.described (withLastRow table (length - 1) (position + 1))
      (description table start position length)

def steps (table : Table) (start : Option String) : List (Step Table) :=
  (List.range' 1 table.input.length).flatMap (rowSteps table start)

end Membership

/-- The table of an input is filled for the Chomsky normal form of the grammar. -/
def membership (grammar : Grammar) (input : String) : Table :=
  let normal := grammar.chomsky.grammar
  Membership.fill normal (normal.tokenise input)

def membershipSteps (grammar : Grammar) (input : String) : List (Step Table) :=
  Membership.steps (grammar.membership input) grammar.chomsky.grammar.start

end FormalLanguages.Grammar
