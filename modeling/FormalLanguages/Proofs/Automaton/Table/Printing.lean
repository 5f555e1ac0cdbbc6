import FormalLanguages.Automaton.Table.Printer
import FormalLanguages.Proofs.Automaton.Table.Reading
import FormalLanguages.Proofs.Text.Spacing

namespace FormalLanguages.Automaton.Table

/-! # Printed cells and lines

A line is its first cell and then the others behind blanks, and a cell is read as the targets
that are printed in it, whatever follows behind a blank. -/

variable {automaton : Automaton} {state name : String} {rest : List Char}

/-! ## Lines -/

theorem length_columnWidths {table : List (List String)} {count : Nat} (some : table ≠ [])
    (same : ∀ cells, cells ∈ table → cells.length = count) :
    (columnWidths table).length = count := by
  induction table with
  | nil => exact absurd rfl some
  | cons cells rest induction =>
      rcases List.forall_mem_cons.mp same with ⟨own, others⟩
      cases rest with
      | nil => rw [columnWidths, List.length_map, own]
      | cons next rest =>
          have later := induction (List.cons_ne_nil _ _) others
          rw [columnWidths, List.length_zipWith, own, later, Nat.min_self]
          exact nofun

theorem forall₂_padded {widths : List Nat} {cells : List String}
    (same : widths.length = cells.length) :
    List.Forall₂ Text.PaddedFrom (cells.map String.toList)
      ((List.zipWith Text.padded widths cells).map String.toList) := by
  induction cells generalizing widths with
  | nil => rw [List.zipWith_nil_right]; exact .nil
  | cons cell rest induction =>
      cases widths with
      | nil => cases same
      | cons width widths =>
          exact .cons (Text.paddedFrom_padded width cell) (induction (Nat.succ.inj same))

/-- Only what pads the last cell is trimmed away. -/
theorem exists_toList_line {widths : List Nat} {first : String} {cells : List String}
    (same : widths.length = cells.length + 1)
    (ends : ∀ cell, cell ∈ cells → Text.EndsSolid cell.toList)
    (solid : cells = [] → Text.EndsSolid first.toList) :
    ∃ text, (line widths (first :: cells)).toList = first.toList ++ text ∧
      Text.Spaced (cells.map String.toList) text ∧ Text.EndsSolid (first.toList ++ text) := by
  cases widths with
  | nil => cases same
  | cons width widths =>
      have blank : ∀ character, character ∈ "  ".toList → Text.isBlank character = true := by decide
      rcases Text.exists_spaced (by decide) blank (Text.paddedFrom_padded width first)
        (forall₂_padded (Nat.succ.inj same)) with ⟨text, pad, whole, spaced, blankPad⟩
      have endsText : Text.EndsSolid (first.toList ++ text) := by
        cases cells with
        | nil =>
            cases spaced
            rw [List.append_nil]
            exact solid rfl
        | cons cell rest =>
            refine (spaced.endsSolid (List.cons_ne_nil _ _) fun other member => ?_).append _
            rcases List.mem_map.mp member with ⟨text, inside, rfl⟩
            exact ends text inside
      refine ⟨text, ?_, spaced, endsText⟩
      rw [line, List.zipWith_cons_cons, String.toList_ofList, Text.toList_joined, List.map_cons,
        whole, Text.trimEnd_append_blank endsText blankPad]

theorem mem_line {widths : List Nat} {cells : List String} (same : widths.length = cells.length)
    {character : Char} (inside : character ∈ (line widths cells).toList) :
    character = ' ' ∨ ∃ cell, cell ∈ cells ∧ character ∈ cell.toList := by
  rw [line, String.toList_ofList, Text.trimEnd, List.mem_reverse, Text.toList_joined] at inside
  have joined := List.mem_reverse.mp ((List.dropWhile_sublist _).mem inside)
  rcases Text.mem_intercalate joined with between | ⟨padded, member, own⟩
  · exact .inl (by simpa using between)
  · rcases exists_item (forall₂_padded same) member with ⟨_, listed, pad, rfl, spaces⟩
    rcases List.mem_map.mp listed with ⟨cell, inCells, rfl⟩
    rcases List.mem_append.mp own with inCell | inPad
    · exact .inr ⟨cell, inCells, inCell⟩
    · exact .inl (spaces character inPad)

/-! ## Cells -/

/-- What a state may be called so that its row and its mentions are read as they are meant. -/
structure IsStateName (name : String) : Prop where
  filled : name ≠ ""
  plain : ∀ character, character ∈ name.toList →
    isNameCharacter character = true ∧ character ≠ '#'
  unarrowed : dropStartMark? name.toList = none
  unstarred : Text.dropLeading? acceptingMark name.toList = none

theorem isNameCharacter_iff {character : Char} : isNameCharacter character = true ↔
    Text.isBlank character = false ∧ character ≠ openBrace ∧ character ≠ closeBrace := by
  simp [isNameCharacter, and_assoc]

theorem IsStateName.solid (named : IsStateName name) {character : Char}
    (inside : character ∈ name.toList) : Text.isBlank character = false :=
  (isNameCharacter_iff.mp (named.plain character inside).1).1

theorem exists_head (filled : name ≠ "") : ∃ head tail, name.toList = head :: tail :=
  List.exists_cons_of_ne_nil (String.toList_eq_nil_iff.not.mpr filled)

theorem IsStateName.endsSolid (named : IsStateName name) : Text.EndsSolid name.toList :=
  Text.endsSolid_of_solid (String.toList_eq_nil_iff.not.mpr named.filled) fun _ => named.solid

/-- Up to a blank the cell is read as these targets. -/
def ReadsAs (cell : List Char) (targets : List String) : Prop :=
  ∃ head tail, cell = head :: tail ∧ Text.isBlank head = false ∧
    ∀ line rest, Text.BeginsBlank rest →
      column line head (tail ++ rest) = .ok (targets, rest)

theorem readsAs_bare (filled : name ≠ "")
    (whole : ∀ character, character ∈ name.toList → isNameCharacter character = true) :
    ReadsAs name.toList (if name = emptySetName then [] else [name]) := by
  rcases exists_head filled with ⟨head, tail, spelled⟩
  rw [spelled] at whole
  rcases List.forall_mem_cons.mp whole with ⟨first, others⟩
  have stops : ∀ character, Text.isBlank character = true → isNameCharacter character = false :=
    fun character blank => by simp [isNameCharacter, blank]
  have solid := isNameCharacter_iff.mp first
  refine ⟨head, tail, spelled, solid.1, fun line rest begins => ?_⟩
  rw [column, if_neg solid.2.1, if_pos first, begins.takeWhile_append stops others,
    begins.dropWhile_append stops others, ← spelled, String.ofList_toList]

theorem toList_braced (inside : String) :
    (braced inside).toList = openBrace :: (inside.toList ++ [closeBrace]) := by
  rw [braced, String.toList_append, String.toList_append]
  rfl

theorem readsAs_braced {names : List String} (filled : ∀ name, name ∈ names → name ≠ "")
    (whole : ∀ name, name ∈ names → ∀ character, character ∈ name.toList →
      isListSeparator character = false ∧ character ≠ closeBrace) :
    ReadsAs (braced (Text.joined ", " names)).toList names := by
  refine ⟨openBrace, _, toList_braced _, rfl, fun line rest begins => ?_⟩
  have pieces : ∀ piece, piece ∈ names.map String.toList → piece ≠ [] ∧
      ∀ character, character ∈ piece → isListSeparator character = false := by
    intro piece member
    rcases List.mem_map.mp member with ⟨name, listed, rfl⟩
    exact ⟨fun none => filled name listed (String.toList_eq_nil_iff.mp none),
      fun character inside => (whole name listed character inside).1⟩
  have free : closeBrace ∉ (Text.joined ", " names).toList := by
    intro inside
    rw [Text.toList_joined] at inside
    rcases Text.mem_intercalate inside with between | ⟨_, member, own⟩
    · exact absurd between (by decide)
    · rcases List.mem_map.mp member with ⟨name, listed, rfl⟩
      exact (whole name listed _ own).2 rfl
  have separate : ∀ character, character ∈ ", ".toList → isListSeparator character = true := by
    decide
  rw [column, if_pos rfl, List.append_assoc, List.singleton_append, Text.cutAt?_singleton free]
  simp only [Text.toList_joined, Text.nonEmptyPieces_intercalate (by decide) separate pieces,
    List.map_map]
  congr 2
  exact (List.map_congr_left fun name _ => String.ofList_toList).trans (List.map_id names)

theorem readsAs_listed {names : List String} (named : ∀ name, name ∈ names → IsStateName name)
    (listed : ∀ name, name ∈ names → ',' ∉ name.toList) :
    ReadsAs (braced (Text.joined ", " names)).toList names := by
  refine readsAs_braced (fun name member => (named name member).filled)
    fun name member character inside => ?_
  have different : character ≠ ',' := fun same => listed name member (same ▸ inside)
  have kept := isNameCharacter_iff.mp ((named name member).plain character inside).1
  exact ⟨by simp [isListSeparator, different, kept.1], kept.2.2⟩

/-- A bare cell is enough for one target, and a target with a comma needs one. -/
theorem readsAs_targetsCell {bare : Bool} {targets : SortedSet String}
    (named : ∀ target, target ∈ targets → IsStateName target)
    (listed : (bare = true ∧ targets.size ≤ 1) ∨
      ∀ target, target ∈ targets → ',' ∉ target.toList) :
    ReadsAs (targetsCell bare targets).toList targets.toList := by
  rw [targetsCell]
  split
  case h_1 none =>
    rw [none]
    exact readsAs_bare (by decide) (by decide)
  case h_2 target only =>
    have member : target ∈ targets := SortedSet.mem_toList.mp (only ▸ List.mem_cons_self)
    have own := named target member
    rw [only]
    split
    case isTrue plain =>
      have different : target ≠ emptySetName := (by simpa using plain : _ ∧ _).2
      have read := readsAs_bare own.filled fun character inside => (own.plain character inside).1
      rwa [if_neg different] at read
    case isFalse decorated =>
      have single : ',' ∉ target.toList := by
        rcases listed with ⟨rfl, _⟩ | single
        · have same : target = emptySetName := by simpa using decorated
          rw [same]
          decide
        · exact single target member
      have alone : target = Text.joined ", " [target] := rfl
      rw [alone]
      exact readsAs_listed (List.forall_mem_singleton.mpr own) (List.forall_mem_singleton.mpr single)
  case h_3 several notNone notOne =>
    refine readsAs_listed named ?_
    rcases listed with ⟨_, few⟩ | single
    · exfalso
      rw [SortedSet.size] at few
      cases found : targets.toList with
      | nil => exact notNone found
      | cons target others =>
          rw [found, List.length_cons] at few
          have none := Nat.le_zero.mp (Nat.le_of_succ_le_succ few)
          rw [List.eq_nil_of_length_eq_zero none] at found
          exact notOne target found
    · exact single

theorem endsSolid_targetsCell {bare : Bool} {targets : SortedSet String}
    (named : ∀ target, target ∈ targets → IsStateName target) :
    Text.EndsSolid (targetsCell bare targets).toList := by
  have closed (inside : String) : Text.EndsSolid (braced inside).toList :=
    ⟨openBrace :: inside.toList, closeBrace, toList_braced inside, by decide⟩
  rw [targetsCell]
  split
  case h_1 => exact Text.endsSolid_of_solid (by decide) (by decide)
  case h_2 target only =>
    have named := named target (SortedSet.mem_toList.mp (only ▸ List.mem_cons_self))
    split
    · exact named.endsSolid
    · exact closed target
  case h_3 => exact closed _

/-- What rows are written with, apart from names. -/
def signs : List Char := ['→', '*', '∅', ',', ' ', openBrace, closeBrace]

theorem not_mem_targetsCell {bare : Bool} {targets : SortedSet String} {character : Char}
    (foreign : character ∉ signs)
    (clean : ∀ target, target ∈ targets → character ∉ target.toList) :
    character ∉ (targetsCell bare targets).toList := by
  have closed (names : List String) (clean : ∀ name, name ∈ names → character ∉ name.toList) :
      character ∉ (braced (Text.joined ", " names)).toList := by
    rw [toList_braced, Text.toList_joined]
    intro inside
    rcases List.mem_cons.mp inside with rfl | inside
    · exact foreign (by decide)
    rcases List.mem_append.mp inside with inside | last
    · rcases Text.mem_intercalate inside with between | ⟨_, member, own⟩
      · have commaOrSpace : ∀ other, other ∈ ", ".toList → other ∈ signs := by decide
        exact foreign (commaOrSpace character between)
      · rcases List.mem_map.mp member with ⟨name, listed, rfl⟩
        exact clean name listed own
    · rw [List.mem_singleton.mp last] at foreign
      exact foreign (by decide)
  rw [targetsCell]
  split
  case h_1 =>
    have sign : ∀ other, other ∈ emptySetName.toList → other ∈ signs := by decide
    exact fun inside => foreign (sign character inside)
  case h_2 target only =>
    have own := clean target (SortedSet.mem_toList.mp (only ▸ List.mem_cons_self))
    split
    · exact own
    · exact closed [target] fun other inside => List.mem_singleton.mp inside ▸ own
  case h_3 => exact closed _ clean

/-! ## Columns -/

theorem columnsWithin_spaced {line steps : Nat} {cells : List (List Char)} {text : List Char}
    {targets : List (List String)} (spaced : Text.Spaced cells text)
    (each : List.Forall₂ ReadsAs cells targets) (enough : text.length < steps) :
    columnsWithin line steps text = .ok targets := by
  induction spaced generalizing steps targets with
  | nil =>
      cases each
      cases steps with
      | zero => cases enough
      | succ => rfl
  | cons some blank spaced induction =>
      cases each with
      | cons reads each =>
          rcases reads with ⟨head, tail, rfl, solid, reads⟩
          cases steps with
          | zero => cases enough
          | succ steps =>
              rw [columnsWithin, Text.trimStart_append_blank blank, List.cons_append,
                Text.trimStart_eq_self solid]
              simp only [List.length_append, List.length_cons] at enough
              have later : columnsWithin line steps _ = .ok _ := induction each (by omega)
              exact bind_eq_ok_iff.mpr ⟨_, reads line _ spaced.beginsBlank,
                bind_eq_ok_iff.mpr ⟨_, later, rfl⟩⟩

theorem columns_spaced {line : Nat} {cells : List (List Char)} {text : List Char}
    {targets : List (List String)} (spaced : Text.Spaced cells text)
    (each : List.Forall₂ ReadsAs cells targets) : columns line text = .ok targets :=
  columnsWithin_spaced spaced each (Nat.lt_succ_self _)

/-! ## Rows -/

def marks (isStart isAccepting : Bool) : List Char :=
  (if isStart then ['→', ' '] else []) ++ if isAccepting then ['*', ' '] else []

theorem mem_signs_of_mem_marks (isStart isAccepting : Bool) :
    ∀ character, character ∈ marks isStart isAccepting → character ∈ signs := by
  cases isStart <;> cases isAccepting <;> decide

theorem toList_stateCell (automaton : Automaton) (state : String) :
    (stateCell automaton state).toList =
      marks (decide (state = automaton.starting)) (automaton.isAccepting state) ++ state.toList := by
  rw [stateCell, String.toList_append, String.toList_append, marks]
  congr 2
  · by_cases start : state = automaton.starting <;> simp [start]
  · cases automaton.isAccepting state <;> rfl

theorem dropStartMark?_eq_none_iff {text : List Char} : dropStartMark? text = none ↔
    Text.dropLeading? startMark text = none ∧ Text.dropLeading? asciiStartMark text = none := by
  rw [dropStartMark?]
  cases Text.dropLeading? startMark text <;> simp [Option.orElse]

section Marked

variable (named : IsStateName name) (begins : Text.BeginsBlank rest)

include named

theorem IsStateName.exists_solid : ∃ head tail, name.toList = head :: tail ∧
    Text.isBlank head = false := by
  rcases exists_head named.filled with ⟨head, tail, spelled⟩
  exact ⟨head, tail, spelled, named.solid (spelled ▸ List.mem_cons_self)⟩

theorem exists_solid_marked (isStart isAccepting : Bool) (rest : List Char) :
    ∃ head tail, marks isStart isAccepting ++ (name.toList ++ rest) = head :: tail ∧
      Text.isBlank head = false := by
  rcases named.exists_solid with ⟨head, tail, spelled, solid⟩
  cases isStart with
  | true => exact ⟨_, _, rfl, by decide⟩
  | false =>
      cases isAccepting with
      | true => exact ⟨_, _, rfl, by decide⟩
      | false => exact ⟨head, tail ++ rest, by rw [spelled]; rfl, solid⟩

theorem trimStart_marked (isAccepting : Bool) (rest : List Char) :
    Text.trimStart (' ' :: (marks false isAccepting ++ (name.toList ++ rest))) =
      marks false isAccepting ++ (name.toList ++ rest) := by
  rcases exists_solid_marked named false isAccepting rest with ⟨head, tail, whole, solid⟩
  have blank : ∀ character, character ∈ [' '] → Text.isBlank character = true := by decide
  rw [whole, ← List.singleton_append, Text.trimStart_append_blank blank,
    Text.trimStart_eq_self solid]

include begins

omit named in
/-- A name does not become a mark by what follows it. -/
theorem dropLeading?_named {mark : List Char}
    (solid : ∀ character, character ∈ mark → Text.isBlank character = false)
    (absent : Text.dropLeading? mark name.toList = none) :
    Text.dropLeading? mark (name.toList ++ rest) = none := by
  refine Text.dropLeading?_append absent fun head first begun => ?_
  rcases List.head?_eq_some_iff.mp first with ⟨tail, whole⟩
  have inMark := begun.subset (List.mem_append_right _ List.mem_cons_self)
  exact Bool.false_ne_true ((solid head inMark).symm.trans (begins head tail whole))

theorem dropStartMark?_named : dropStartMark? (name.toList ++ rest) = none := by
  have absent := dropStartMark?_eq_none_iff.mp named.unarrowed
  exact dropStartMark?_eq_none_iff.mpr ⟨dropLeading?_named begins (by decide) absent.1,
    dropLeading?_named begins (by decide) absent.2⟩

theorem dropStartMark?_marked (isStart isAccepting : Bool) :
    dropStartMark? (marks isStart isAccepting ++ (name.toList ++ rest)) =
      if isStart then some (' ' :: (marks false isAccepting ++ (name.toList ++ rest))) else none := by
  cases isStart with
  | true => rfl
  | false =>
      cases isAccepting with
      | true => rfl
      | false => exact dropStartMark?_named named begins

theorem unarrowed_marked (isStart isAccepting : Bool) :
    unarrowed (marks isStart isAccepting ++ (name.toList ++ rest)) =
      marks false isAccepting ++ (name.toList ++ rest) := by
  rw [unarrowed, dropStartMark?_marked named begins]
  cases isStart with
  | true => exact trimStart_marked named isAccepting rest
  | false => rfl

theorem afterStar?_marked (isStart isAccepting : Bool) :
    afterStar? (marks isStart isAccepting ++ (name.toList ++ rest)) =
      if isAccepting then some (' ' :: (name.toList ++ rest)) else none := by
  rw [afterStar?, unarrowed_marked named begins]
  cases isAccepting with
  | true => rfl
  | false => exact dropLeading?_named begins (by decide) named.unstarred

theorem unmarked_marked (isStart isAccepting : Bool) :
    unmarked (marks isStart isAccepting ++ (name.toList ++ rest)) = name.toList ++ rest := by
  rw [unmarked, afterStar?_marked named begins, unarrowed_marked named begins]
  cases isAccepting with
  | true => exact trimStart_marked named false rest
  | false => rfl

/-- Marks, a name and columns are read as the row that they were printed for. -/
theorem row_marked {isStart isAccepting : Bool} {line columnCount : Nat}
    {found : List (List String)} (read : columns line rest = .ok found)
    (few : found.length ≤ columnCount) :
    row line columnCount (marks isStart isAccepting ++ (name.toList ++ rest)) =
      .ok ⟨name, isStart, isAccepting, found⟩ := by
  have stateIs : stateText (marks isStart isAccepting ++ (name.toList ++ rest)) = name.toList := by
    rw [stateText, unmarked_marked named begins]
    refine begins.takeWhile_append (fun character blank => by simp [blank]) fun _ inside => ?_
    simp [named.solid inside]
  have columnsAre : columnsText (marks isStart isAccepting ++ (name.toList ++ rest)) = rest := by
    rw [columnsText, stateIs, unmarked_marked named begins, List.drop_left]
  refine row_eq_ok_iff.mpr ⟨?_, ?_, few, ?_, ?_, ?_⟩
  · rw [stateIs]
    exact String.toList_eq_nil_iff.not.mpr named.filled
  · rw [columnsAre]
    exact read
  · rw [stateIs, String.ofList_toList]
  · rw [dropStartMark?_marked named begins]
    cases isStart <;> rfl
  · rw [afterStar?_marked named begins]
    cases isAccepting <;> rfl

end Marked

end FormalLanguages.Automaton.Table
