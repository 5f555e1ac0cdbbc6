import FormalLanguages.Proofs.Regex.Rereading
import FormalLanguages.Regex.Derivation

namespace FormalLanguages.Regex

/-! # Reading follows the grammar

A text is read exactly if the grammar derives it, and then as the expression of the derivation.
In one direction, the chunks of what a rule derives are read as that rule has it, wherever they
stand. In the other, what has been read so far is spelled by what the reader holds. -/

variable {rule : Rule} {regex operand : Regex} {level : Level} {reading next : Reading}
  {text own : List Char} {character : Char}

theorem isReserved_iff : Reading.isReserved character = true ↔ character ∈ signs :=
  decide_eq_true_iff

theorem isReserved_eq_false_iff : Reading.isReserved character = false ↔ character ∉ signs :=
  decide_eq_false_iff_not

/-! ## What is derived is read -/

/-- A text is put together from chunks, and so it is cut into just these chunks. -/
structure Cuts (text : List Char) (cut : List Text.Chunk) : Prop where
  whole : cut.flatMap Text.Chunk.text = text
  proper : ∀ chunk, chunk ∈ cut → chunk.Proper Name.isSubscript

theorem Cuts.append {before after : List Char} {first last : List Text.Chunk}
    (cuts : Cuts before first) (later : Cuts after last) :
    Cuts (before ++ after) (first ++ last) where
  whole := by rw [List.flatMap_append, cuts.whole, later.whole]
  proper := List.forall_mem_append.mpr ⟨cuts.proper, later.proper⟩

theorem cuts_chunk {letter : Char} {marks : List Char} (plain : Name.isSubscript letter = false)
    (subscripts : ∀ mark, mark ∈ marks → Name.isSubscript mark = true) :
    Cuts (letter :: marks) [⟨letter, marks⟩] where
  whole := List.flatMap_singleton Text.Chunk.text ⟨letter, marks⟩
  proper := List.forall_mem_singleton.mpr ⟨plain, subscripts⟩

theorem cuts_lone (character : Char) (plain : Name.isSubscript character = false) :
    Cuts [character] [lone character] := cuts_chunk plain fun _ none => absurd none List.not_mem_nil

theorem Cuts.chunks_eq {cut : List Text.Chunk} (cuts : Cuts text cut) :
    Text.chunks Name.isSubscript text = ⟨[], cut⟩ := by
  rw [← cuts.whole]
  exact Text.chunks_flatMap_text cuts.proper

/-- What a rule derives is read by itself, as some operands of a sequence, or as one operand. -/
def ReadBy : Rule → List Text.Chunk → Regex → Prop
  | .alt, cut, regex => ReadsWhole cut regex
  | .cat, cut, regex => ∃ operands, operands ≠ [] ∧ Pushes cut operands ∧ catAll operands = regex
  | .post, cut, regex => Pushes cut [regex]
  | .atom, cut, regex => Pushes cut [regex]

theorem Derives.exists_cut (derives : Derives rule text regex) :
    ∃ cut, Cuts text cut ∧ ReadBy rule cut regex := by
  induction derives with
  | only _ induction =>
      rcases induction with ⟨cut, cuts, operands, some, pushes, rfl⟩
      exact ⟨cut, cuts, pushes.whole some⟩
  | plus _ _ inFirst inLast =>
      rcases inFirst with ⟨first, cutsFirst, whole⟩
      rcases inLast with ⟨last, cutsLast, operands, some, pushes, rfl⟩
      have cuts := cutsFirst.append ((cuts_lone '+' (by decide)).append cutsLast)
      exact ⟨_, cuts, whole.plus pushes some⟩
  | last _ induction =>
      rcases induction with ⟨cut, cuts, pushes⟩
      exact ⟨cut, cuts, _, List.cons_ne_nil _ _, pushes, rfl⟩
  | next _ _ inHead inTail =>
      rcases inHead with ⟨head, cutsHead, pushesHead⟩
      rcases inTail with ⟨tail, cutsTail, operands, some, pushesTail, rfl⟩
      exact ⟨_, cutsHead.append cutsTail, _, List.cons_ne_nil _ _, pushesHead.append pushesTail,
        catAll_cons some _⟩
  | bare _ induction => exact induction
  | starred _ induction =>
      rcases induction with ⟨cut, cuts, pushes⟩
      exact ⟨_, cuts.append (cuts_lone '*' (by decide)), pushes.star (List.cons_ne_nil _ _)⟩
  | enclosed _ induction =>
      rcases induction with ⟨cut, cuts, whole⟩
      have inside := cuts.append (cuts_lone ')' (by decide))
      exact ⟨_, (cuts_lone '(' (by decide)).append inside, whole.enclosed⟩
  | empty => exact ⟨_, cuts_lone '∅' (by decide), pushes_reserved (by decide) fun _ => rfl⟩
  | nil => exact ⟨_, cuts_lone 'ε' (by decide), pushes_reserved (by decide) fun _ => rfl⟩
  | symbol free plain =>
      exact ⟨_, cuts_lone _ plain, pushes_name (isReserved_eq_false_iff.mpr free)⟩
  | @reference letter digits free plain some subscripts =>
      have unreserved : Reading.isReserved (Text.Chunk.mk letter digits).head = false :=
        isReserved_eq_false_iff.mpr free
      have pushes := pushes_name unreserved
      rw [Reading.name, if_neg (by simpa using some)] at pushes
      exact ⟨_, cuts_chunk plain subscripts, pushes⟩

theorem Derives.parse_eq {text : String}
    (derives : Derives .alt (Text.withoutBlanks text.toList) regex) : parse text = .ok regex := by
  rcases derives.exists_cut with ⟨cut, cuts, whole⟩
  exact whole.parse_eq cuts.chunks_eq

/-! ## What is read is derived

The text that has been read is what stands before the open parentheses, and then what the
current level holds: the alternatives before the last `+`, and the operands after it. -/

/-- The alternatives before the last `+` of a level, and that `+`. -/
def SpellsAlternatives : Option Regex → List Char → Prop
  | none, text => text = []
  | some regex, text => ∃ before, Derives .alt before regex ∧ text = before ++ ['+']

/-- The pieces belong to the operands, the latest first. -/
def Level.Spells (level : Level) (text : List Char) : Prop :=
  ∃ opening pieces, SpellsAlternatives level.alternatives opening ∧
    List.Forall₂ (Derives .post) pieces level.operands ∧ text = opening ++ pieces.reverse.flatten

def SpellsOuter : List (Nat × Level) → List Char → Prop
  | [], text => text = []
  | (_, level) :: outer, text => ∃ before own, SpellsOuter outer before ∧ level.Spells own ∧
      text = before ++ own ++ ['(']

def Reading.Spells (reading : Reading) (text : List Char) : Prop :=
  ∃ before own, SpellsOuter reading.outer before ∧ reading.level.Spells own ∧ text = before ++ own

/-! ### Levels -/

theorem derives_cat {pieces : List (List Char)} {operands : List Regex}
    (each : List.Forall₂ (Derives .post) pieces operands) (some : operands ≠ []) :
    Derives .cat pieces.flatten (catAll operands) := by
  induction each with
  | nil => exact absurd rfl some
  | @cons piece operand pieces operands own others induction =>
      rw [List.flatten_cons]
      by_cases last : operands = []
      · subst last
        cases others
        rw [List.flatten_nil, List.append_nil]
        exact .last own
      · rw [catAll_cons last]
        exact .next own (induction last)

namespace Level

theorem spells_start : Level.start.Spells [] := ⟨[], [], rfl, .nil, rfl⟩

theorem spells_plus (derives : Derives .alt text regex) :
    Level.Spells ⟨some regex, []⟩ (text ++ ['+']) :=
  ⟨_, [], ⟨text, derives, rfl⟩, .nil, (List.append_nil _).symm⟩

theorem Spells.push (spells : level.Spells text) (derives : Derives .post own operand) :
    (level.push operand).Spells (text ++ own) := by
  rcases spells with ⟨opening, pieces, before, each, rfl⟩
  refine ⟨opening, own :: pieces, before, .cons derives each, ?_⟩
  rw [List.reverse_cons, List.flatten_append, List.flatten_singleton, List.append_assoc]

/-- A star goes to the latest operand. -/
theorem Spells.star {alternatives : Option Regex} {last : Regex} {others : List Regex}
    (spells : Level.Spells ⟨alternatives, last :: others⟩ text) :
    Level.Spells ⟨alternatives, Regex.star last :: others⟩ (text ++ ['*']) := by
  rcases spells with ⟨opening, pieces, before, each, rfl⟩
  cases each with
  | @cons piece _ earlier _ own rest =>
      refine ⟨opening, (piece ++ ['*']) :: earlier, before, .cons (.starred own) rest, ?_⟩
      simp

theorem Spells.finish (spells : level.Spells text) {position : Nat}
    (finished : level.finish position = .ok regex) : Derives .alt text regex := by
  rcases spells with ⟨opening, pieces, before, each, rfl⟩
  rw [Level.finish] at finished
  split at finished
  case isTrue => cases finished
  case isFalse filled =>
    cases finished
    have some : level.operands.reverse ≠ [] := by simpa using filled
    have last := derives_cat (List.forall₂_reverse_iff.mpr each) some
    cases found : level.alternatives with
    | none =>
        rw [found] at before
        have nothing : opening = [] := before
        rw [nothing]
        exact .only last
    | some earlier =>
        rw [found] at before
        rcases before with ⟨first, derives, rfl⟩
        rw [List.append_assoc]
        exact .plus derives last

end Level

/-! ### Readings -/

namespace Reading

theorem spells_start : Reading.start.Spells [] := ⟨[], [], rfl, Level.spells_start, rfl⟩

theorem Spells.push (spells : reading.Spells text) (derives : Derives .post own operand) :
    (reading.push operand).Spells (text ++ own) := by
  rcases spells with ⟨before, earlier, around, holds, rfl⟩
  exact ⟨before, _, around, holds.push derives, List.append_assoc ..⟩

theorem Spells.advance (spells : reading.Spells text) (count : Nat) :
    (reading.advance count).Spells text := spells

theorem Spells.readPlus (spells : reading.Spells text) (read : reading.readPlus = .ok next) :
    next.Spells (text ++ ['+']) := by
  rcases spells with ⟨before, own, around, holds, rfl⟩
  rcases bind_eq_ok_iff.mp read with ⟨alternatives, finished, same⟩
  cases same
  exact ⟨before, _, around, Level.spells_plus (holds.finish finished), List.append_assoc ..⟩

theorem Spells.readStar (spells : reading.Spells text) (read : reading.readStar = .ok next) :
    next.Spells (text ++ ['*']) := by
  rcases reading with ⟨position, ⟨alternatives, operands⟩, outer⟩
  rcases spells with ⟨before, own, around, holds, rfl⟩
  cases operands with
  | nil => cases read
  | cons last others =>
      cases read
      exact ⟨before, _, around, holds.star, List.append_assoc ..⟩

theorem Spells.readOpen (spells : reading.Spells text) : reading.readOpen.Spells (text ++ ['(']) := by
  rcases spells with ⟨before, own, around, holds, rfl⟩
  exact ⟨_, [], ⟨before, own, around, holds, rfl⟩, Level.spells_start, (List.append_nil _).symm⟩

/-- What stands between two parentheses is one more operand around them. -/
theorem Spells.readClose (spells : reading.Spells text) (read : reading.readClose = .ok next) :
    next.Spells (text ++ [')']) := by
  rcases reading with ⟨position, level, outer⟩
  rcases spells with ⟨before, inside, around, holds, rfl⟩
  cases outer with
  | nil => cases read
  | cons opened outer =>
      rcases bind_eq_ok_iff.mp read with ⟨regex, finished, same⟩
      cases same
      rcases around with ⟨first, own, further, earlier, rfl⟩
      have operand : Derives .post ('(' :: (inside ++ [')'])) regex :=
        .bare (.enclosed (holds.finish finished))
      refine ⟨first, _, further, earlier.push operand, ?_⟩
      simp only [List.append_assoc, List.cons_append, List.nil_append]

theorem Spells.readReserved (spells : reading.Spells text)
    (reserved : Reading.isReserved character = true)
    (read : reading.readReserved character = .ok next) : next.Spells (text ++ [character]) := by
  have sign := isReserved_iff.mp reserved
  simp only [signs, List.mem_cons, List.not_mem_nil, or_false] at sign
  rcases sign with rfl | rfl | rfl | rfl | rfl | rfl
  · exact spells.readPlus read
  · exact spells.readStar read
  · cases read
    exact spells.readOpen
  · exact spells.readClose read
  · cases read
    exact spells.push (.bare .empty)
  · cases read
    exact spells.push (.bare .nil)

theorem derives_name {chunk : Text.Chunk} (free : Reading.isReserved chunk.head = false)
    (proper : chunk.Proper Name.isSubscript) : Derives .post chunk.text (name chunk) := by
  rcases chunk with ⟨letter, marks⟩
  have letterFree := isReserved_eq_false_iff.mp free
  cases marks with
  | nil => exact .bare (.symbol letterFree proper.1)
  | cons mark marks =>
      exact .bare (.reference letterFree proper.1 (List.cons_ne_nil mark marks) proper.2)

theorem readMarks_eq_ok_iff {marks : List Char} :
    reading.readMarks marks = .ok next ↔ marks = [] ∧ reading = next := by
  cases marks with
  | nil => simp [readMarks]
  | cons mark marks => simp [readMarks]

theorem Spells.readChunk (spells : reading.Spells text) {chunk : Text.Chunk}
    (proper : chunk.Proper Name.isSubscript) (read : reading.readChunk chunk = .ok next) :
    next.Spells (text ++ chunk.text) := by
  rw [Reading.readChunk] at read
  split at read
  case isTrue reserved =>
    rcases bind_eq_ok_iff.mp read with ⟨middle, head, marks⟩
    rcases readMarks_eq_ok_iff.mp marks with ⟨none, rfl⟩
    rw [Text.Chunk.text, none]
    exact (spells.readReserved reserved head).advance 1
  case isFalse free =>
    cases read
    exact (spells.push (derives_name (Bool.eq_false_iff.mpr free) proper)).advance _

theorem Spells.readChunks (spells : reading.Spells text) {cut : List Text.Chunk}
    (proper : ∀ chunk, chunk ∈ cut → chunk.Proper Name.isSubscript)
    (read : reading.readChunks cut = .ok next) :
    next.Spells (text ++ cut.flatMap Text.Chunk.text) := by
  induction cut generalizing reading text with
  | nil =>
      cases read
      exact (List.append_nil text).symm ▸ spells
  | cons chunk rest induction =>
      rcases List.forall_mem_cons.mp proper with ⟨first, others⟩
      rcases bind_eq_ok_iff.mp read with ⟨middle, head, tail⟩
      rw [List.flatMap_cons, ← List.append_assoc]
      exact induction (spells.readChunk first head) others tail

theorem Spells.finish (spells : reading.Spells text) (finished : reading.finish = .ok regex) :
    Derives .alt text regex := by
  rcases reading with ⟨position, level, outer⟩
  rcases spells with ⟨before, own, around, holds, rfl⟩
  rw [Reading.finish] at finished
  split at finished
  case isTrue => cases finished
  case isFalse =>
    rcases bind_eq_ok_iff.mp finished with ⟨whole, ended, closed⟩
    cases outer with
    | nil =>
        cases closed
        have nothing : before = [] := around
        rw [nothing]
        exact holds.finish ended
    | cons opened outer => cases closed

end Reading

theorem derives_of_parse {text : String} (read : parse text = .ok regex) :
    Derives .alt (Text.withoutBlanks text.toList) regex := by
  rcases bind_eq_ok_iff.mp read with ⟨first, stray, later⟩
  rcases bind_eq_ok_iff.mp later with ⟨last, chunks, finished⟩
  rcases Reading.readMarks_eq_ok_iff.mp stray with ⟨none, rfl⟩
  have proper : ∀ chunk, chunk ∈ (Text.chunks Name.isSubscript
      (Text.withoutBlanks text.toList)).chunks → chunk.Proper Name.isSubscript :=
    (Text.proper_chunks _).2
  have spells := Reading.spells_start.readChunks proper chunks
  have whole := Text.text_chunks Name.isSubscript (Text.withoutBlanks text.toList)
  rw [Text.Chunks.text, none] at whole
  exact whole ▸ spells.finish finished

/-! ## All texts -/

/-- Blanks apart, exactly the texts of the grammar are read, each as the one expression that
the grammar has for it. All others are refused. -/
theorem parse_follows_grammar (text : String) :
    (∀ regex, parse text = .ok regex ↔ Derives .alt (Text.withoutBlanks text.toList) regex) ∧
      ((∃ error, parse text = .error error) ↔
        ∀ regex, ¬ Derives .alt (Text.withoutBlanks text.toList) regex) := by
  have exact : ∀ regex, parse text = .ok regex ↔
      Derives .alt (Text.withoutBlanks text.toList) regex :=
    fun regex => ⟨derives_of_parse, Derives.parse_eq⟩
  refine ⟨exact, ?_⟩
  simp only [← exact]
  cases parse text with
  | error fault => simp
  | ok regex => simp

end FormalLanguages.Regex
