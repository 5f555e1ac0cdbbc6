import FormalLanguages.Name.Subscript
import FormalLanguages.Regex.Basic
import FormalLanguages.Text.Blank
import FormalLanguages.Text.Chunks
import FormalLanguages.Text.Quoted

namespace FormalLanguages.Regex

/-! Reading expressions. The grammar is

    alt  := cat ('+' cat)*
    cat  := post post*
    post := atom '*'*
    atom := '(' alt ')' | '∅' | 'ε' | name

where a name is one character and the subscript digits after it: a symbol if there
are none, else a reference. Blanks mean nothing, and positions count the other
characters from zero. -/

inductive ParseError where
  | empty
  | missingOperand (position : Nat)
  | unexpected (position : Nat) (character : Char)
  | unclosedParenthesis (position : Nat)
deriving DecidableEq, Repr

def ParseError.message : ParseError → String
  | empty => "Empty regular expression"
  | missingOperand position => "Missing operand at position " ++ toString position
  | unexpected position character =>
      "Unexpected " ++ Text.quotedCharacter character ++ " at position " ++ toString position
  | unclosedParenthesis position =>
      "Unclosed parenthesis opened at position " ++ toString position

/-- What has been read since the last open parenthesis: the alternatives before
the last `+`, and the operands after it, the latest first. -/
structure Level where
  alternatives : Option Regex
  operands : List Regex
deriving DecidableEq

namespace Level

def start : Level := ⟨none, []⟩

def push (level : Level) (operand : Regex) : Level :=
  { level with operands := operand :: level.operands }

def finish (level : Level) (position : Nat) : Except ParseError Regex :=
  if level.operands.isEmpty then
    .error (.missingOperand position)
  else
    let last := catAll level.operands.reverse
    .ok ((level.alternatives.map fun before => alternative before last).getD last)

end Level

/-- The levels around the current one wait for their parentheses to be closed;
with each stands the position of the parenthesis. -/
structure Reading where
  position : Nat
  level : Level
  outer : List (Nat × Level)
deriving DecidableEq

namespace Reading

def start : Reading := ⟨0, Level.start, []⟩

def push (reading : Reading) (operand : Regex) : Reading :=
  { reading with level := reading.level.push operand }

def readPlus (reading : Reading) : Except ParseError Reading := do
  let before ← reading.level.finish reading.position
  return { reading with level := ⟨some before, []⟩ }

def readStar (reading : Reading) : Except ParseError Reading :=
  match reading.level.operands with
  | [] => .error (.missingOperand reading.position)
  | last :: others =>
      .ok { reading with level := { reading.level with operands := star last :: others } }

def readOpen (reading : Reading) : Reading :=
  { reading with
    level := Level.start
    outer := (reading.position, reading.level) :: reading.outer }

def readClose (reading : Reading) : Except ParseError Reading :=
  match reading.outer with
  | [] => .error (.unexpected reading.position ')')
  | (_, around) :: outer => do
      let inside ← reading.level.finish reading.position
      return { reading with level := around.push inside, outer }

def isReserved (character : Char) : Bool :=
  character ∈ ['+', '*', '(', ')', '∅', 'ε']

def readReserved (reading : Reading) (character : Char) : Except ParseError Reading :=
  if character = '+' then reading.readPlus
  else if character = '*' then reading.readStar
  else if character = '(' then .ok reading.readOpen
  else if character = ')' then reading.readClose
  else if character = '∅' then .ok (reading.push .empty)
  else .ok (reading.push .nil)

def name (chunk : Text.Chunk) : Regex :=
  let text := String.ofList chunk.text
  if chunk.marks.isEmpty then symbol text else reference text

def advance (reading : Reading) (count : Nat) : Reading :=
  { reading with position := reading.position + count }

def readMarks (reading : Reading) : List Char → Except ParseError Reading
  | [] => .ok reading
  | mark :: _ => .error (.unexpected reading.position mark)

def readChunk (reading : Reading) (chunk : Text.Chunk) : Except ParseError Reading :=
  if isReserved chunk.head then do
    let after ← reading.readReserved chunk.head
    (after.advance 1).readMarks chunk.marks
  else
    .ok ((reading.push (name chunk)).advance (1 + chunk.marks.length))

def readChunks (reading : Reading) : List Text.Chunk → Except ParseError Reading
  | [] => .ok reading
  | chunk :: rest => do
      let after ← reading.readChunk chunk
      after.readChunks rest

def finish (reading : Reading) : Except ParseError Regex := do
  if reading.level = Level.start ∧ reading.outer = [] then
    throw .empty
  let regex ← reading.level.finish reading.position
  match reading.outer with
  | [] => return regex
  | (position, _) :: _ => throw (.unclosedParenthesis position)

end Reading

def parse (text : String) : Except ParseError Regex := do
  let cut := Text.chunks Name.isSubscript (Text.withoutBlanks text.toList)
  let reading ← Reading.start.readMarks cut.strayMarks
  let reading ← reading.readChunks cut.chunks
  reading.finish

end FormalLanguages.Regex
