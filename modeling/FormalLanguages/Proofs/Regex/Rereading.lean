import FormalLanguages.Proofs.Collection.Results
import FormalLanguages.Proofs.Regex.Languages
import FormalLanguages.Proofs.Text.Characters
import FormalLanguages.Proofs.Text.Pieces
import FormalLanguages.Regex.Parser
import FormalLanguages.Regex.Printer

namespace FormalLanguages.Regex

/-! # Printed expressions are read back

A printed expression is read as the expression that it was, up to two things. Sequences come
out nested to the right, and a symbol of several characters comes out as a sequence of
symbols. A star behind such a symbol is a star of its last character. -/

variable {regex body : Regex} {reading : Reading} {level : Level}

/-! ## Operands

What is read for an expression are operands of the sequence that it stands in. -/

def starLast (operands : List Regex) : List Regex :=
  match operands.reverse with
  | [] => []
  | last :: before => before.reverse ++ [star last]

def readBack : Regex → List Regex
  | empty => [empty]
  | nil => [nil]
  | symbol name => name.toList.map fun character => symbol (String.ofList [character])
  | reference name => [reference name]
  | sequence first second => readBack first ++ readBack second
  | alternative left right => [alternative (catAll (readBack left)) (catAll (readBack right))]
  | star body =>
      if precedence body < 3 then [star (catAll (readBack body))] else starLast (readBack body)

/-! ## Chunks -/

def lone (character : Char) : Text.Chunk := ⟨character, []⟩

def enclosed (needed : Bool) (cut : List Text.Chunk) : List Text.Chunk :=
  if needed then lone '(' :: (cut ++ [lone ')']) else cut

def written : Regex → List Text.Chunk
  | empty => [lone '∅']
  | nil => [lone 'ε']
  | symbol name => name.toList.map lone
  | reference name => (Text.chunks Name.isSubscript name.toList).chunks
  | sequence first second =>
      enclosed (precedence first < 2) (written first) ++
        enclosed (precedence second < 2) (written second)
  | alternative left right =>
      enclosed (precedence left < 1) (written left) ++
        lone '+' :: enclosed (precedence right ≤ 1) (written right)
  | star body => enclosed (precedence body < 3) (written body) ++ [lone '*']

structure IsLetter (character : Char) : Prop where
  solid : Text.isBlank character = false
  free : Reading.isReserved character = false
  unmarked : Name.isSubscript character = false

/-- The expressions whose names can be told apart once they are written down. -/
def Legible : Regex → Prop
  | empty => True
  | nil => True
  | symbol name => name ≠ "" ∧ ∀ character, character ∈ name.toList → IsLetter character
  | reference name => ∃ chunk : Text.Chunk, chunk.text = name.toList ∧ IsLetter chunk.head ∧
      chunk.marks ≠ [] ∧ ∀ mark, mark ∈ chunk.marks → Name.isSubscript mark = true
  | sequence first second => Legible first ∧ Legible second
  | alternative left right => Legible left ∧ Legible right
  | star body => Legible body

theorem IsLetter.proper {character : Char} (letter : IsLetter character) {marks : List Char}
    (all : ∀ mark, mark ∈ marks → Name.isSubscript mark = true) :
    Text.Chunk.Proper Name.isSubscript ⟨character, marks⟩ := ⟨letter.unmarked, all⟩

theorem proper_lone {character : Char} (unmarked : Name.isSubscript character = false) :
    (lone character).Proper Name.isSubscript :=
  ⟨unmarked, fun _ none => absurd none List.not_mem_nil⟩

theorem mem_enclosed {needed : Bool} {cut : List Text.Chunk} {chunk : Text.Chunk}
    (member : chunk ∈ enclosed needed cut) :
    chunk = lone '(' ∨ chunk ∈ cut ∨ chunk = lone ')' := by
  rw [enclosed] at member
  split at member
  case isTrue => simpa [List.mem_cons, List.mem_append] using member
  case isFalse => exact .inr (.inl member)

theorem proper_enclosed {needed : Bool} {cut : List Text.Chunk}
    (all : ∀ chunk, chunk ∈ cut → chunk.Proper Name.isSubscript) {chunk : Text.Chunk}
    (member : chunk ∈ enclosed needed cut) : chunk.Proper Name.isSubscript := by
  rcases mem_enclosed member with rfl | inside | rfl
  · exact proper_lone (by decide)
  · exact all chunk inside
  · exact proper_lone (by decide)

theorem written_reference {name : String} {chunk : Text.Chunk} (text : chunk.text = name.toList)
    (proper : chunk.Proper Name.isSubscript) : written (reference name) = [chunk] := by
  have alone : Text.chunks Name.isSubscript name.toList = ⟨[], [chunk]⟩ := by
    have cut : ∀ other, other ∈ [chunk] → other.Proper Name.isSubscript :=
      fun other only => List.mem_singleton.mp only ▸ proper
    have chunks := Text.chunks_flatMap_text cut
    rwa [List.flatMap_singleton, text] at chunks
  rw [written, alone]

theorem Legible.proper_written (legible : regex.Legible) {chunk : Text.Chunk}
    (member : chunk ∈ regex.written) : chunk.Proper Name.isSubscript := by
  induction regex generalizing chunk with
  | empty | nil => exact List.mem_singleton.mp member ▸ proper_lone (by decide)
  | symbol name =>
      rcases List.mem_map.mp member with ⟨character, inside, rfl⟩
      exact proper_lone (legible.2 character inside).unmarked
  | reference name =>
      rcases legible with ⟨own, text, letter, _, all⟩
      have proper : own.Proper Name.isSubscript := letter.proper all
      rw [written_reference text proper] at member
      exact List.mem_singleton.mp member ▸ proper
  | sequence first second inFirst inSecond =>
      rcases List.mem_append.mp member with before | after
      · exact proper_enclosed (fun _ => inFirst legible.1) before
      · exact proper_enclosed (fun _ => inSecond legible.2) after
  | alternative left right inLeft inRight =>
      rcases List.mem_append.mp member with before | after
      · exact proper_enclosed (fun _ => inLeft legible.1) before
      · rcases List.mem_cons.mp after with rfl | later
        · exact proper_lone (by decide)
        · exact proper_enclosed (fun _ => inRight legible.2) later
  | star body inBody =>
      rcases List.mem_append.mp member with before | after
      · exact proper_enclosed (fun _ => inBody legible) before
      · exact List.mem_singleton.mp after ▸ proper_lone (by decide)

/-! ## The printed text -/

theorem withoutBlanks_append (first second : String) :
    Text.withoutBlanks (first ++ second).toList =
      Text.withoutBlanks first.toList ++ Text.withoutBlanks second.toList := by
  rw [String.toList_append, Text.withoutBlanks, List.filter_append]
  rfl

theorem withoutBlanks_parenthesised {text : String} {cut : List Text.Chunk}
    (spells : Text.withoutBlanks text.toList = cut.flatMap Text.Chunk.text) (needed : Bool) :
    Text.withoutBlanks (parenthesised needed text).toList =
      (enclosed needed cut).flatMap Text.Chunk.text := by
  rw [parenthesised, enclosed]
  split
  case isTrue =>
    rw [withoutBlanks_append, withoutBlanks_append, spells, List.flatMap_cons, List.flatMap_append]
    rfl
  case isFalse => exact spells

theorem Legible.withoutBlanks_print (legible : regex.Legible) :
    Text.withoutBlanks regex.print.toList = regex.written.flatMap Text.Chunk.text := by
  induction regex with
  | empty | nil => decide
  | symbol name =>
      have solid := Text.withoutBlanks_eq_self fun character inside =>
        (legible.2 character inside).solid
      rw [print, solid, written, List.flatMap_map]
      exact (List.flatMap_singleton' name.toList).symm
  | reference name =>
      rcases legible with ⟨chunk, text, letter, _, all⟩
      rw [written_reference text (letter.proper all), print, List.flatMap_singleton, text]
      refine Text.withoutBlanks_eq_self fun character inside => ?_
      rw [← text, Text.Chunk.text, List.mem_cons] at inside
      rcases inside with rfl | later
      · exact letter.solid
      · exact Text.not_isBlank_of_isSubscript (all character later)
  | sequence first second inFirst inSecond =>
      rw [print, withoutBlanks_append, withoutBlanks_parenthesised (inFirst legible.1),
        withoutBlanks_parenthesised (inSecond legible.2), written, List.flatMap_append]
  | alternative left right inLeft inRight =>
      rw [print, withoutBlanks_append, withoutBlanks_append,
        withoutBlanks_parenthesised (inLeft legible.1),
        withoutBlanks_parenthesised (inRight legible.2), written, List.flatMap_append,
        List.flatMap_cons, List.append_assoc]
      rfl
  | star body inBody =>
      rw [print, withoutBlanks_append, withoutBlanks_parenthesised (inBody legible), written,
        List.flatMap_append]
      rfl

theorem Legible.chunks_print (legible : regex.Legible) :
    Text.chunks Name.isSubscript (Text.withoutBlanks regex.print.toList) =
      ⟨[], regex.written⟩ := by
  rw [legible.withoutBlanks_print]
  exact Text.chunks_flatMap_text fun _ => legible.proper_written

/-! ## Reading -/

theorem Reading.readChunks_append (reading : Reading) (first rest : List Text.Chunk) :
    reading.readChunks (first ++ rest) =
      (reading.readChunks first).bind fun after => after.readChunks rest := by
  induction first generalizing reading with
  | nil => rfl
  | cons chunk first induction =>
      rw [List.cons_append, Reading.readChunks, Reading.readChunks]
      cases reading.readChunk chunk with
      | error => rfl
      | ok after => exact induction after

/-- The chunks are read at the level of the reading, and lead to another level there. -/
def Reads (reading : Reading) (cut : List Text.Chunk) (level : Level) : Prop :=
  ∃ position, reading.readChunks cut = .ok ⟨position, level, reading.outer⟩

theorem Reads.append {first rest : List Text.Chunk} {between after : Level}
    (reads : Reads reading first between)
    (later : ∀ position, Reads ⟨position, between, reading.outer⟩ rest after) :
    Reads reading (first ++ rest) after := by
  rcases reads with ⟨position, read⟩
  rcases later position with ⟨last, readRest⟩
  refine ⟨last, ?_⟩
  rw [Reading.readChunks_append, read]
  exact readRest

theorem Reading.readChunks_lone_cons {character : Char} {next : Reading}
    (reserved : Reading.isReserved character = true)
    (read : reading.readReserved character = .ok next) (rest : List Text.Chunk) :
    reading.readChunks (lone character :: rest) = (next.advance 1).readChunks rest := by
  rw [Reading.readChunks, Reading.readChunk, lone, if_pos reserved, read]
  rfl

theorem reads_reserved {character : Char} (reserved : Reading.isReserved character = true)
    {after : Level} (read : reading.readReserved character = .ok { reading with level := after }) :
    Reads reading [lone character] after :=
  ⟨reading.position + 1, Reading.readChunks_lone_cons reserved read []⟩

def Level.pushAll (level : Level) (operands : List Regex) : Level :=
  { level with operands := operands.reverse ++ level.operands }

theorem Level.pushAll_append (level : Level) (first rest : List Regex) :
    (level.pushAll first).pushAll rest = level.pushAll (first ++ rest) := by
  simp [Level.pushAll]

/-- Wherever the chunks are read, they are read as these operands. -/
def Pushes (cut : List Text.Chunk) (operands : List Regex) : Prop :=
  ∀ reading : Reading, Reads reading cut (reading.level.pushAll operands)

theorem Pushes.append {first rest : List Text.Chunk} {before after : List Regex}
    (pushes : Pushes first before) (later : Pushes rest after) :
    Pushes (first ++ rest) (before ++ after) := by
  intro reading
  rw [← Level.pushAll_append]
  exact (pushes reading).append fun position =>
    later ⟨position, reading.level.pushAll before, reading.outer⟩

theorem pushes_reserved {character : Char} (reserved : Reading.isReserved character = true)
    (read : ∀ reading : Reading, reading.readReserved character = .ok (reading.push regex)) :
    Pushes [lone character] [regex] := fun reading => reads_reserved reserved (read reading)

theorem pushes_name {chunk : Text.Chunk} (free : Reading.isReserved chunk.head = false) :
    Pushes [chunk] [Reading.name chunk] := fun reading =>
  ⟨_, by rw [Reading.readChunks, Reading.readChunk, free]; rfl⟩

theorem pushes_letters {text : List Char}
    (letters : ∀ character, character ∈ text → IsLetter character) :
    Pushes (text.map lone) (text.map fun character => symbol (String.ofList [character])) := by
  induction text with
  | nil => exact fun reading => ⟨_, rfl⟩
  | cons head tail induction =>
      rcases List.forall_mem_cons.mp letters with ⟨letter, later⟩
      have first : Pushes [lone head] [symbol (String.ofList [head])] := pushes_name letter.free
      exact first.append (induction later)

theorem Pushes.star {cut : List Text.Chunk} {operands : List Regex} (pushes : Pushes cut operands)
    (some : operands ≠ []) : Pushes (cut ++ [lone '*']) (starLast operands) := by
  refine fun reading => (pushes reading).append fun position => reads_reserved (by decide) ?_
  change Reading.readStar _ = _
  rw [Reading.readStar, Level.pushAll, Level.pushAll, starLast]
  cases reversed : operands.reverse with
  | nil => exact absurd (List.reverse_eq_nil_iff.mp reversed) some
  | cons last before => simp

/-! A level that nothing else is read at is finished with an expression, at whatever
position it ends. -/

def Level.Finishes (level : Level) (regex : Regex) : Prop :=
  ∀ position, level.finish position = .ok regex

theorem finishes_pushAll {operands : List Regex} (some : operands ≠ []) (before : Option Regex) :
    (Level.pushAll ⟨before, []⟩ operands).Finishes
      ((before.map fun regex => alternative regex (catAll operands)).getD (catAll operands)) := by
  intro position
  have filled : operands.reverse.isEmpty = false := by simpa using some
  rw [Level.finish, Level.pushAll]
  simp only [List.append_nil, filled, Bool.false_eq_true, if_false, List.reverse_reverse]

def ReadsWhole (cut : List Text.Chunk) (regex : Regex) : Prop :=
  ∀ position outer, ∃ level, Reads ⟨position, Level.start, outer⟩ cut level ∧ level.Finishes regex

theorem Pushes.whole {cut : List Text.Chunk} {operands : List Regex} (pushes : Pushes cut operands)
    (some : operands ≠ []) : ReadsWhole cut (catAll operands) := fun position outer =>
  ⟨_, pushes ⟨position, Level.start, outer⟩, finishes_pushAll some none⟩

theorem ReadsWhole.plus {first rest : List Text.Chunk} {before : Regex} {operands : List Regex}
    (whole : ReadsWhole first before) (pushes : Pushes rest operands) (some : operands ≠ []) :
    ReadsWhole (first ++ lone '+' :: rest) (alternative before (catAll operands)) := by
  intro position outer
  rcases whole position outer with ⟨level, reads, finishes⟩
  have plus : ∀ position, Reads ⟨position, level, outer⟩ [lone '+'] ⟨before, []⟩ := by
    refine fun position => reads_reserved (by decide) ?_
    change Reading.readPlus _ = _
    rw [Reading.readPlus, finishes position]
    rfl
  refine ⟨_, ?_, finishes_pushAll some (Option.some before)⟩
  rw [List.append_cons]
  exact (reads.append plus).append fun position => pushes ⟨position, ⟨before, []⟩, outer⟩

/-- What is read between parentheses is one operand of what stands around them. -/
theorem ReadsWhole.enclosed {cut : List Text.Chunk} (whole : ReadsWhole cut regex) :
    Pushes (enclosed true cut) [regex] := by
  intro reading
  rcases whole (reading.position + 1) ((reading.position, reading.level) :: reading.outer) with
    ⟨level, ⟨position, read⟩, finishes⟩
  have opened : reading.readReserved '(' = .ok reading.readOpen := rfl
  have inside : (reading.readOpen.advance 1).readChunks cut = _ := read
  have closed : Reading.readReserved
      ⟨position, level, (reading.position, reading.level) :: reading.outer⟩ ')' =
        .ok ⟨position, reading.level.push regex, reading.outer⟩ := by
    change Reading.readClose
      ⟨position, level, (reading.position, reading.level) :: reading.outer⟩ = _
    rw [Reading.readClose, finishes position]
    rfl
  refine ⟨position + 1, ?_⟩
  rw [Regex.enclosed, if_pos rfl, Reading.readChunks_lone_cons (by decide) opened,
    Reading.readChunks_append, inside]
  exact Reading.readChunks_lone_cons (by decide) closed []

/-! ## All expressions -/

theorem starLast_ne_nil {operands : List Regex} (some : operands ≠ []) : starLast operands ≠ [] := by
  rw [starLast]
  cases reversed : operands.reverse with
  | nil => exact absurd (List.reverse_eq_nil_iff.mp reversed) some
  | cons last before => simp

theorem Legible.readBack_ne_nil (legible : regex.Legible) : regex.readBack ≠ [] := by
  induction regex with
  | symbol name =>
      exact fun none => legible.1 (String.toList_eq_nil_iff.mp (List.map_eq_nil_iff.mp none))
  | sequence first second inFirst _ =>
      exact fun none => inFirst legible.1 (List.append_eq_nil_iff.mp none).1
  | star body inBody =>
      rw [readBack]
      split
      case isTrue => exact List.cons_ne_nil _ _
      case isFalse => exact starLast_ne_nil (inBody legible)
  | empty | nil | reference _ | alternative _ _ _ _ => exact List.cons_ne_nil _ _

/-- How an expression is read: as operands if it stands in a sequence, and as a whole. -/
structure Rereads (regex : Regex) : Prop where
  operands : 2 ≤ precedence regex → Pushes regex.written regex.readBack
  whole : ReadsWhole regex.written (catAll regex.readBack)

theorem Rereads.of_pushes (legible : regex.Legible)
    (pushes : Pushes regex.written regex.readBack) : Rereads regex :=
  ⟨fun _ => pushes, pushes.whole legible.readBack_ne_nil⟩

/-- An expression that is printed where it may stand in parentheses. -/
theorem Rereads.enclosed (rereads : Rereads regex) {bound : Nat} (least : 2 ≤ bound) :
    Pushes (enclosed (precedence regex < bound) regex.written)
      (if precedence regex < bound then [catAll regex.readBack] else regex.readBack) := by
  by_cases needed : precedence regex < bound
  · rw [decide_eq_true needed, if_pos needed]
    exact rereads.whole.enclosed
  · rw [decide_eq_false needed, if_neg needed]
    exact rereads.operands (Nat.le_trans least (Nat.le_of_not_lt needed))

/-- Only an alternative needs parentheses in a sequence, and it is one operand anyway. -/
theorem Rereads.factor (rereads : Rereads regex) :
    Pushes (Regex.enclosed (precedence regex < 2) regex.written) regex.readBack := by
  have pushes := rereads.enclosed (Nat.le_refl 2)
  split at pushes
  case isFalse => exact pushes
  case isTrue loose =>
    cases regex with
    | alternative => exact pushes
    | _ => exact absurd loose (by simp [precedence])

theorem Legible.rereads (legible : regex.Legible) : Rereads regex := by
  induction regex with
  | empty | nil => exact .of_pushes legible (pushes_reserved (by decide) fun _ => rfl)
  | symbol name => exact .of_pushes legible (pushes_letters legible.2)
  | reference name =>
      rcases legible with ⟨chunk, text, letter, marked, all⟩
      refine .of_pushes ⟨chunk, text, letter, marked, all⟩ ?_
      have pushes := pushes_name letter.free
      rw [Reading.name, text, String.ofList_toList, if_neg (by simpa using marked)] at pushes
      rwa [written_reference text (letter.proper all)]
  | sequence first second inFirst inSecond =>
      exact .of_pushes legible ((inFirst legible.1).factor.append (inSecond legible.2).factor)
  | alternative left right inLeft inRight =>
      refine ⟨fun tight => absurd tight (by simp [precedence]), ?_⟩
      have bare : enclosed (precedence left < 1) left.written = left.written := by
        cases left <;> rfl
      have atMost : decide (precedence right ≤ 1) = decide (precedence right < 2) :=
        decide_eq_decide.mpr Nat.lt_succ_iff.symm
      rw [written, bare, atMost]
      exact (inLeft legible.1).whole.plus (inRight legible.2).factor legible.2.readBack_ne_nil
  | star body inBody =>
      have inside := (inBody legible).enclosed (Nat.le_succ 2)
      refine .of_pushes legible ?_
      rw [readBack]
      split at inside
      case isTrue loose =>
        rw [if_pos loose]
        exact inside.star (List.cons_ne_nil _ _)
      case isFalse tight =>
        have body : body.Legible := legible
        rw [if_neg tight]
        exact inside.star body.readBack_ne_nil

/-- A text is read as the expression that its chunks are read as. -/
theorem ReadsWhole.parse_eq {text : String} {cut : List Text.Chunk} (whole : ReadsWhole cut regex)
    (chunks : Text.chunks Name.isSubscript (Text.withoutBlanks text.toList) = ⟨[], cut⟩) :
    parse text = .ok regex := by
  rcases whole 0 [] with ⟨level, ⟨position, read⟩, finishes⟩
  have started : ¬ level = Level.start := by
    rintro rfl
    exact nomatch finishes 0
  have finished : Reading.finish ⟨position, level, []⟩ = .ok regex := by
    rw [Reading.finish, if_neg fun both => started both.1]
    exact bind_eq_ok_iff.mpr ⟨_, finishes position, rfl⟩
  rw [parse, chunks]
  exact bind_eq_ok_iff.mpr ⟨_, rfl, bind_eq_ok_iff.mpr ⟨_, read, finished⟩⟩

/-- A printed expression is read as its operands in sequence. -/
theorem Legible.parse_print (legible : regex.Legible) :
    parse regex.print = .ok (catAll regex.readBack) :=
  legible.rereads.whole.parse_eq legible.chunks_print

/-! ## What is read matches the same texts -/

/-- Behind every star stands a single character, or no symbol. -/
def StarsWhole : Regex → Prop
  | sequence first second => StarsWhole first ∧ StarsWhole second
  | alternative left right => StarsWhole left ∧ StarsWhole right
  | star body => (∀ name, body = symbol name → name.length = 1) ∧ StarsWhole body
  | _ => True

theorem starLast_singleton (only : Regex) : starLast [only] = [star only] := rfl

/-- What a star is put behind without parentheses is one operand. -/
theorem StarsWhole.exists_readBack_eq (whole : (star body).StarsWhole)
    (tight : ¬ precedence body < 3) : ∃ only, body.readBack = [only] := by
  induction body with
  | empty | nil | reference _ => exact ⟨_, rfl⟩
  | symbol name =>
      have single : name.toList.length = 1 := whole.1 name rfl
      rcases List.length_eq_one_iff.mp single with ⟨letter, letters⟩
      exact ⟨_, by rw [readBack, letters]; rfl⟩
  | sequence | alternative => exact absurd (by simp [precedence]) tight
  | star inner induction =>
      by_cases loose : precedence inner < 3
      · exact ⟨_, by rw [readBack, if_pos loose]⟩
      · rcases induction whole.2 loose with ⟨only, same⟩
        exact ⟨star only, by rw [readBack, if_neg loose, same, starLast_singleton]⟩

theorem matches_letters_iff {text word : List Char} :
    word ∈ (languages Meaning.characters
      (text.map fun character => symbol (String.ofList [character]))).prod ↔ word = text := by
  induction text generalizing word with
  | nil => exact Language.mem_one word
  | cons head tail induction =>
      rw [List.map_cons, languages_cons, List.prod_cons, Language.mem_mul]
      constructor
      · rintro ⟨first, isHead, rest, inTail, rfl⟩
        have same : first = (String.ofList [head]).toList := matches_symbol_iff.mp isHead
        rw [same, String.toList_ofList, induction.mp inTail, List.singleton_append]
      · rintro rfl
        exact ⟨[head], .symbol String.toList_ofList.symm, tail, induction.mpr rfl, rfl⟩

/-- Reading an expression back changes nothing that it matches, unless a star stands behind
a symbol of several characters. -/
theorem StarsWhole.language_readBack (whole : regex.StarsWhole) :
    (languages Meaning.characters regex.readBack).prod = language Meaning.characters regex := by
  induction regex with
  | empty | nil | reference _ => exact List.prod_singleton
  | symbol name =>
      have own {word : List Char} : word ∈ language Meaning.characters (symbol name) ↔
          word = name.toList := matches_symbol_iff
      exact Language.ext fun word => matches_letters_iff.trans own.symm
  | sequence first second inFirst inSecond =>
      rw [readBack, languages_append, List.prod_append, inFirst whole.1, inSecond whole.2,
        language_sequence]
  | alternative left right inLeft inRight =>
      rw [readBack, languages_cons, languages_nil, List.prod_singleton, language_alternative,
        language_catAll, language_catAll, inLeft whole.1, inRight whole.2, language_alternative]
  | star body inBody =>
      have same := inBody whole.2
      rw [readBack]
      split
      case isTrue =>
        rw [languages_cons, languages_nil, List.prod_singleton, language_star, language_catAll,
          same, language_star]
      case isFalse tight =>
        rcases whole.exists_readBack_eq tight with ⟨only, single⟩
        rw [single, languages_cons, languages_nil, List.prod_singleton] at same
        rw [single, starLast_singleton, languages_cons, languages_nil, List.prod_singleton,
          language_star, same, language_star]

theorem StarsWhole.matchesText_readBack (whole : regex.StarsWhole) {text : List Char} :
    (catAll regex.readBack).MatchesText text ↔ regex.MatchesText text := by
  have same : language Meaning.characters (catAll regex.readBack) =
      language Meaning.characters regex := (language_catAll _).trans whole.language_readBack
  rw [MatchesText, ← mem_language, same, mem_language]

end FormalLanguages.Regex
