import FormalLanguages.Proofs.Collection.Results
import FormalLanguages.Proofs.Text.Pieces
import FormalLanguages.Regex.Parser

namespace FormalLanguages.Regex

/-! # Where names come from

An expression that is read has no names but those that are written in the text: a character
that is not reserved, and the subscripts after it. -/

variable {regex operand : Regex} {level : Level} {reading after : Reading}
  {holds : String → Prop}

def NamesHold (holds : String → Prop) (regex : Regex) : Prop :=
  ∀ name, name ∈ regex.names → holds name

theorem NamesHold.append {left right : Regex} (inLeft : left.NamesHold holds)
    (inRight : right.NamesHold holds) : ∀ name, name ∈ left.names ++ right.names → holds name :=
  fun name member => (List.mem_append.mp member).elim (inLeft name) (inRight name)

theorem namesHold_catAll {regexes : List Regex}
    (each : ∀ regex, regex ∈ regexes → regex.NamesHold holds) :
    (catAll regexes).NamesHold holds := by
  fun_induction catAll regexes with
  | case1 => exact fun _ none => absurd none List.not_mem_nil
  | case2 last => exact each last List.mem_cons_self
  | case3 first next rest induction =>
      rcases List.forall_mem_cons.mp each with ⟨own, others⟩
      exact own.append (induction others)

/-! ## Levels -/

structure Level.NamesHold (holds : String → Prop) (level : Level) : Prop where
  alternatives : ∀ regex, level.alternatives = some regex → regex.NamesHold holds
  operands : ∀ regex, regex ∈ level.operands → regex.NamesHold holds

namespace Level.NamesHold

theorem start : Level.start.NamesHold holds where
  alternatives := nofun
  operands _ none := absurd none List.not_mem_nil

theorem push (kept : level.NamesHold holds) (own : operand.NamesHold holds) :
    (level.push operand).NamesHold holds where
  alternatives := kept.alternatives
  operands := List.forall_mem_cons.mpr ⟨own, kept.operands⟩

theorem finish (kept : level.NamesHold holds) {position : Nat}
    (finished : level.finish position = .ok regex) : regex.NamesHold holds := by
  rw [Level.finish] at finished
  split at finished
  · cases finished
  · cases finished
    have last : (catAll level.operands.reverse).NamesHold holds :=
      namesHold_catAll fun regex member => kept.operands regex (List.mem_reverse.mp member)
    cases found : level.alternatives with
    | none => exact last
    | some before => exact (kept.alternatives before found).append last

end Level.NamesHold

/-! ## Readings -/

namespace Reading

structure NamesHold (holds : String → Prop) (reading : Reading) : Prop where
  level : reading.level.NamesHold holds
  outer : ∀ entry, entry ∈ reading.outer → entry.2.NamesHold holds

namespace NamesHold

variable (kept : reading.NamesHold holds)

include kept

theorem push (own : operand.NamesHold holds) : (reading.push operand).NamesHold holds :=
  ⟨kept.level.push own, kept.outer⟩

theorem advance (count : Nat) : (reading.advance count).NamesHold holds := ⟨kept.level, kept.outer⟩

theorem readPlus (read : reading.readPlus = .ok after) : after.NamesHold holds := by
  rcases bind_eq_ok_iff.mp read with ⟨before, finished, same⟩
  cases same
  refine ⟨⟨?_, fun _ none => absurd none List.not_mem_nil⟩, kept.outer⟩
  rintro _ ⟨⟩
  exact kept.level.finish finished

theorem readStar (read : reading.readStar = .ok after) : after.NamesHold holds := by
  rw [Reading.readStar] at read
  split at read
  · cases read
  case h_2 last others found =>
    cases read
    have operands := kept.level.operands
    rw [found] at operands
    rcases List.forall_mem_cons.mp operands with ⟨own, rest⟩
    exact ⟨⟨kept.level.alternatives, List.forall_mem_cons.mpr ⟨own, rest⟩⟩, kept.outer⟩

theorem readOpen : reading.readOpen.NamesHold holds :=
  ⟨.start, List.forall_mem_cons.mpr ⟨kept.level, kept.outer⟩⟩

theorem readClose (read : reading.readClose = .ok after) : after.NamesHold holds := by
  rw [Reading.readClose] at read
  split at read
  · cases read
  case h_2 position around outer found =>
    rcases bind_eq_ok_iff.mp read with ⟨inside, finished, same⟩
    cases same
    have levels := kept.outer
    rw [found] at levels
    rcases List.forall_mem_cons.mp levels with ⟨own, rest⟩
    exact ⟨own.push (kept.level.finish finished), rest⟩

theorem readReserved {character : Char} (read : reading.readReserved character = .ok after) :
    after.NamesHold holds := by
  rw [Reading.readReserved] at read
  split at read
  · exact kept.readPlus read
  split at read
  · exact kept.readStar read
  split at read
  · cases read
    exact kept.readOpen
  split at read
  · exact kept.readClose read
  split at read
  · cases read
    exact kept.push fun _ none => absurd none List.not_mem_nil
  · cases read
    exact kept.push fun _ none => absurd none List.not_mem_nil

theorem readMarks {marks : List Char} (read : reading.readMarks marks = .ok after) :
    after.NamesHold holds := by
  cases marks with
  | nil =>
      cases read
      exact kept
  | cons => cases read

theorem readChunk {chunk : Text.Chunk}
    (own : isReserved chunk.head = false → holds (String.ofList chunk.text))
    (read : reading.readChunk chunk = .ok after) : after.NamesHold holds := by
  rw [Reading.readChunk] at read
  split at read
  · rcases bind_eq_ok_iff.mp read with ⟨middle, reserved, marks⟩
    exact ((kept.readReserved reserved).advance 1).readMarks marks
  case isFalse free =>
    cases read
    refine (kept.push fun name member => ?_).advance _
    have only : name = String.ofList chunk.text := by
      rw [Reading.name] at member
      split at member <;> exact List.mem_singleton.mp member
    exact only ▸ own (Bool.eq_false_iff.mpr free)

theorem readChunks {cut : List Text.Chunk}
    (own : ∀ chunk, chunk ∈ cut → isReserved chunk.head = false → holds (String.ofList chunk.text))
    (read : reading.readChunks cut = .ok after) : after.NamesHold holds := by
  induction cut generalizing reading with
  | nil =>
      cases read
      exact kept
  | cons chunk rest induction =>
      rcases List.forall_mem_cons.mp own with ⟨first, others⟩
      rcases bind_eq_ok_iff.mp read with ⟨middle, head, tail⟩
      exact induction (kept.readChunk first head) others tail

theorem finish (finished : reading.finish = .ok regex) : regex.NamesHold holds := by
  rw [Reading.finish] at finished
  split at finished
  · cases finished
  · rcases bind_eq_ok_iff.mp finished with ⟨whole, closed, last⟩
    split at last
    · cases last
      exact kept.level.finish closed
    · cases last

end NamesHold

end Reading

theorem exists_chunk_of_parse {text : String} (found : parse text = .ok regex) {name : String}
    (named : name ∈ regex.names) :
    ∃ chunk, chunk ∈ (Text.chunks Name.isSubscript (Text.withoutBlanks text.toList)).chunks ∧
      Reading.isReserved chunk.head = false ∧ name = String.ofList chunk.text := by
  rcases bind_eq_ok_iff.mp found with ⟨first, marks, rest⟩
  rcases bind_eq_ok_iff.mp rest with ⟨last, chunks, finished⟩
  have start : Reading.start.NamesHold fun name =>
      ∃ chunk, chunk ∈ (Text.chunks Name.isSubscript (Text.withoutBlanks text.toList)).chunks ∧
        Reading.isReserved chunk.head = false ∧ name = String.ofList chunk.text :=
    ⟨.start, fun _ none => absurd none List.not_mem_nil⟩
  refine (((start.readMarks marks).readChunks (fun chunk member free => ?_) chunks).finish
    finished) name named
  exact ⟨chunk, member, free, rfl⟩

/-- What is written as a name is not empty, holds no blanks, and is not the sign of silence. -/
theorem solid_of_parse {text : String} (found : parse text = .ok regex) {name : String}
    (named : name ∈ regex.names) : name ≠ "" ∧ name ≠ "ε" ∧
      ∀ character, character ∈ name.toList → Text.isBlank character = false := by
  rcases exists_chunk_of_parse found named with ⟨chunk, member, free, rfl⟩
  refine ⟨fun none => ?_, fun silent => ?_, fun character inside => ?_⟩
  · cases String.ofList_eq_empty_iff.mp none
  · have spelled := congrArg String.toList silent
    rw [String.toList_ofList] at spelled
    have head : chunk.head = 'ε' := (List.cons.inj spelled).1
    rw [head] at free
    cases free
  · rw [String.toList_ofList] at inside
    exact Text.not_isBlank_of_mem_withoutBlanks (Text.mem_of_mem_chunks member inside)

end FormalLanguages.Regex
