import FormalLanguages.Grammar.Basic
import FormalLanguages.Name.Subscript
import FormalLanguages.Text.Chunks
import FormalLanguages.Text.Pieces
import FormalLanguages.Text.Uppercase

namespace FormalLanguages.Grammar

/-! Grammars are written with one production on a line:

    S→AB|
    A→a
    B→b

A non-terminal is an upper-case letter and the subscript digits or primes after it,
`ε` is the empty token, and every other character is a terminal of its own. An
alternative without tokens stands for `ε`. The arrow may be written `->`, blanks
mean nothing, and the head of the first line is the start symbol. -/

inductive ParseError where
  | missingArrow (line : Nat)
  | badHead (line : Nat) (head : String)
  | unexpected (line : Nat) (character : Char)
deriving DecidableEq, Repr

def arrow : Char := '→'

def asciiArrow : List Char := ['-', '>']

def bar : Char := '|'

def ParseError.message : ParseError → String
  | missingArrow line => Text.onLine line ("missing " ++ Text.quotedCharacter arrow)
  | badHead line head => Text.onLine line (Text.quotedName head ++ " is not a non-terminal")
  | unexpected line character => Text.onLine line ("unexpected " ++ Text.quotedCharacter character)

def isMark (character : Char) : Bool :=
  Name.isSubscript character || character = '\x27' || character = '′'

def isNonTerminalName : List Char → Bool
  | [] => false
  | head :: marks => Text.isUppercase head && marks.all isMark

def tokenOfChunk (line : Nat) (chunk : Text.Chunk) : Except ParseError Token :=
  if Text.isUppercase chunk.head then
    .ok (.nonTerminal (String.ofList chunk.text))
  else
    match chunk.marks with
    | mark :: _ => .error (.unexpected line mark)
    | [] =>
        if chunk.head = 'ε' then .ok .empty else .ok (.terminal chunk.head.toString)

def parseAlternative (line : Nat) (text : List Char) : Except ParseError Alternative :=
  let cut := Text.chunks isMark (Text.withoutBlanks text)
  match cut.strayMarks with
  | mark :: _ => .error (.unexpected line mark)
  | [] => do
      let tokens ← cut.chunks.mapM (tokenOfChunk line)
      return if tokens.isEmpty then [.empty] else tokens

structure Line where
  head : String
  alternatives : List Alternative
deriving DecidableEq, Repr

def cutAtArrow? (text : List Char) : Option (List Char × List Char) :=
  (Text.cutAt? [arrow] text).orElse fun _ => Text.cutAt? asciiArrow text

def parseLine (line : Nat) (text : List Char) : Except ParseError Line :=
  match cutAtArrow? text with
  | none => .error (.missingArrow line)
  | some (left, body) =>
      let head := Text.withoutBlanks left
      if isNonTerminalName head then do
        let alternatives ← (Text.splitWhere (· = bar) body).mapM (parseAlternative line)
        return ⟨String.ofList head, alternatives⟩
      else
        .error (.badHead line (String.ofList head))

/-! Every symbol of a line is declared where it is first mentioned. Lines with the
same head add up. -/

def blank : Grammar := ⟨∅, ∅, ∅, none⟩

def declareToken (grammar : Grammar) : Token → Grammar
  | .nonTerminal name => grammar.addNonTerminal name
  | .terminal name => grammar.addTerminal name
  | .empty => grammar

def addParsed (head : String) (grammar : Grammar) (alternative : Alternative) : Grammar :=
  (alternative.foldl declareToken grammar).addAlternative head alternative

def addLine (grammar : Grammar) (line : Line) : Grammar :=
  let declared := grammar.addNonTerminal line.head
  let started := { declared with start := declared.start.or (some line.head) }
  line.alternatives.foldl (addParsed line.head) started

def parse (text : String) : Except ParseError Grammar := do
  let lines ← (Text.numberedLines Text.trim text).mapM fun (line, content) => parseLine line content
  return lines.foldl addLine blank

/-! ### Printing

The start symbol comes first, and the other heads in the order of declaration. The
empty token is not written. -/

def printAlternative (alternative : Alternative) : String :=
  Text.concatenated ((alternative.filter (· ≠ .empty)).map Token.text)

def printLine (grammar : Grammar) (head : String) : String :=
  head ++ arrow.toString ++
    Text.joined bar.toString ((grammar.alternatives head).map printAlternative) ++ "\n"

def headsStartFirst (grammar : Grammar) : List String :=
  let isStart := fun (head : String) => grammar.start = some head
  grammar.productions.keys.filter isStart ++
    grammar.productions.keys.filter fun head => !isStart head

def print (grammar : Grammar) : String :=
  Text.concatenated (grammar.headsStartFirst.map grammar.printLine)

end FormalLanguages.Grammar
