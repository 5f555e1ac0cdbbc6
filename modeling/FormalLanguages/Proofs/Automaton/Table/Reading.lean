import FormalLanguages.Automaton.Table.Reader
import FormalLanguages.Proofs.Automaton.Edges
import FormalLanguages.Proofs.Collection.Results
import FormalLanguages.Proofs.Text.Pieces
import Mathlib.Data.List.TakeWhile

namespace FormalLanguages.Automaton.Table

/-! # What a table can hold

The labels of the columns and the names of the rows are words: they are not empty, they hold
no blanks, and they begin no comment. The start state and the accepting states have rows. -/

/-! ## Rows -/

def unarrowed (text : List Char) : List Char := dropMark (dropStartMark? text) text

def afterStar? (text : List Char) : Option (List Char) :=
  Text.dropLeading? acceptingMark (unarrowed text)

def unmarked (text : List Char) : List Char := dropMark (afterStar? text) (unarrowed text)

def stateText (text : List Char) : List Char :=
  (unmarked text).takeWhile fun character => !Text.isBlank character

def columnsText (text : List Char) : List Char := (unmarked text).drop (stateText text).length

theorem row_eq (line columnCount : Nat) (text : List Char) : row line columnCount text =
    if (stateText text).isEmpty then .error (.missingState line)
    else columns line (columnsText text) >>= fun found =>
      if found.length > columnCount then .error (.tooManyColumns line found.length columnCount)
      else .ok ⟨String.ofList (stateText text), (dropStartMark? text).isSome,
        (afterStar? text).isSome, found⟩ := rfl

theorem row_eq_ok_iff {line columnCount : Nat} {text : List Char} {found : Row} :
    row line columnCount text = .ok found ↔ stateText text ≠ [] ∧
      columns line (columnsText text) = .ok found.columns ∧
      found.columns.length ≤ columnCount ∧
      found.state = String.ofList (stateText text) ∧
      found.isStart = (dropStartMark? text).isSome ∧
      found.isAccepting = (afterStar? text).isSome := by
  rw [row_eq]
  cases stateText text with
  | nil => simp
  | cons head tail =>
      simp only [List.isEmpty_cons, Bool.false_eq_true, if_false, bind_eq_ok_iff, ne_eq,
        reduceCtorEq, not_false_eq_true, true_and]
      constructor
      · rintro ⟨targets, read, rest⟩
        split at rest
        case isTrue => cases rest
        case isFalse few =>
          cases rest
          exact ⟨read, Nat.le_of_not_lt few, rfl, rfl, rfl⟩
      · rintro ⟨read, few, state, isStart, isAccepting⟩
        refine ⟨found.columns, read, ?_⟩
        rw [if_neg (Nat.not_lt.mpr few), ← state, ← isStart, ← isAccepting]

/-- Reading rows succeeds exactly if every line is a row and no state is listed twice. -/
theorem rowsFrom_eq_ok_iff {columnCount : Nat} {known : List String}
    {lines : List (Nat × List Char)} {rows : List Row} :
    rowsFrom columnCount known lines = .ok rows ↔
      List.Forall₂ (fun numbered found => row numbered.1 columnCount numbered.2 = .ok found)
        lines rows ∧
      (rows.map Row.state).Nodup ∧ ∀ found, found ∈ rows → found.state ∉ known := by
  induction lines generalizing known rows with
  | nil =>
      rw [rowsFrom, List.forall₂_nil_left_iff]
      constructor
      · intro same
        cases same
        exact ⟨rfl, List.nodup_nil, fun _ none => absurd none List.not_mem_nil⟩
      · rintro ⟨rfl, _⟩
        rfl
  | cons numbered rest induction =>
      rcases numbered with ⟨line, text⟩
      rw [rowsFrom, bind_eq_ok_iff, List.forall₂_cons_left_iff]
      constructor
      · rintro ⟨first, read, later⟩
        split at later
        case isTrue => cases later
        case isFalse new =>
          rcases bind_eq_ok_iff.mp later with ⟨others, readOthers, same⟩
          cases same
          rcases induction.mp readOthers with ⟨each, nodup, fresh⟩
          refine ⟨⟨first, others, read, each, rfl⟩, List.nodup_cons.mpr ⟨?_, nodup⟩,
            List.forall_mem_cons.mpr ⟨new, fun other member => ?_⟩⟩
          · intro repeated
            rcases List.mem_map.mp repeated with ⟨other, member, same⟩
            exact fresh other member (same ▸ List.mem_cons_self)
          · exact fun inKnown => fresh other member (List.mem_cons_of_mem _ inKnown)
      · rintro ⟨⟨first, others, read, each, rfl⟩, nodup, fresh⟩
        rcases List.nodup_cons.mp nodup with ⟨new, nodupOthers⟩
        rcases List.forall_mem_cons.mp fresh with ⟨notKnown, freshOthers⟩
        refine ⟨first, read, ?_⟩
        rw [if_neg notKnown]
        refine bind_eq_ok_iff.mpr ⟨others, induction.mpr ⟨each, nodupOthers, ?_⟩, rfl⟩
        intro other member
        refine List.not_mem_cons_of_ne_of_not_mem (fun same => ?_) (freshOthers other member)
        exact new (same ▸ List.mem_map_of_mem member)

/-! ## The table -/

/-- The lines, labels and rows that are found on the way to an automaton. -/
structure Layout where
  line : Nat
  header : List Char
  body : List (Nat × List Char)
  rows : List Row
  start : Row

namespace Layout

def labels (layout : Layout) : List Label :=
  (Text.words layout.header).map fun word => Label.ofText (String.ofList word)

structure Holds (layout : Layout) (text : String) (automaton : Automaton) : Prop where
  lines : Text.numberedLines withoutComment text = (layout.line, layout.header) :: layout.body
  rows : rowsFrom layout.labels.length [] layout.body = .ok layout.rows
  start : layout.rows.find? Row.isStart = some layout.start
  result : automaton = ofRows layout.start.state
    ((layout.rows.filter Row.isAccepting).map Row.state) (layout.labels.filterMap Label.symbol?)
    (layout.rows.map fun row => (row.state, layout.labels.zip row.columns))

end Layout

theorem read_eq_ok_iff {text : String} {automaton : Automaton} :
    read text = .ok automaton ↔ ∃ layout : Layout, layout.Holds text automaton := by
  rw [read]
  split
  case h_1 none =>
    refine iff_of_false nofun ?_
    rintro ⟨layout, holds⟩
    exact List.cons_ne_nil _ _ (holds.lines.symm.trans none)
  case h_2 line header body lines =>
    rw [bind_eq_ok_iff]
    constructor
    · rintro ⟨rows, readRows, result⟩
      split at result
      case h_1 => cases result
      case h_2 start found =>
        cases result
        exact ⟨⟨line, header, body, rows, start⟩, lines, readRows, found, rfl⟩
    · rintro ⟨layout, holds⟩
      cases holds.lines.symm.trans lines
      refine ⟨layout.rows, holds.rows, ?_⟩
      rw [holds.start]
      exact congrArg _ holds.result.symm

theorem read_eq_missingStart {text : String} {line : Nat} {header : List Char}
    {body : List (Nat × List Char)} {rows : List Row}
    (lines : Text.numberedLines withoutComment text = (line, header) :: body)
    (readRows : rowsFrom (Text.words header).length [] body = .ok rows)
    (absent : rows.find? Row.isStart = none) : read text = .error .missingStart := by
  simp only [read, lines, List.length_map, readRows, bind, Except.bind, absent]
  rfl

theorem read_append_newline (text : String) : read (text ++ "\n") = read text := by
  rw [read, read, Text.numberedLines_append_newline rfl]

/-! ## Words -/

/-- What a name in a table is made of. -/
structure IsWord (name : String) : Prop where
  filled : name ≠ ""
  solid : ∀ character, character ∈ name.toList →
    Text.isBlank character = false ∧ character ≠ '#'

theorem isWord_ofList {text : List Char} (filled : text ≠ [])
    (solid : ∀ character, character ∈ text → Text.isBlank character = false ∧ character ≠ '#') :
    IsWord (String.ofList text) where
  filled none := filled (String.ofList_eq_empty_iff.mp none)
  solid character inside := solid character (by rwa [String.toList_ofList] at inside)

theorem not_hash_of_mem_line {text : String} {line : Nat} {content : List Char}
    (member : (line, content) ∈ Text.numberedLines withoutComment text) {character : Char}
    (inside : character ∈ content) : character ≠ '#' := by
  have listed : content ∈ (Text.numberedLines withoutComment text).map Prod.snd :=
    List.mem_map_of_mem member
  rw [Text.map_snd_numberedLines] at listed
  rcases List.mem_map.mp (List.mem_filter.mp listed).1 with ⟨raw, _, rfl⟩
  have kept := List.mem_takeWhile_imp (Text.mem_of_mem_trim inside)
  exact of_decide_eq_true kept

theorem mem_of_mem_dropMark {rest? : Option (List Char)} {text : List Char}
    (part : ∀ rest, rest? = some rest → rest ⊆ text) {character : Char}
    (inside : character ∈ dropMark rest? text) : character ∈ text := by
  cases found : rest? with
  | none => rwa [found, dropMark] at inside
  | some rest =>
      rw [found, dropMark] at inside
      exact part rest found ((List.dropWhile_sublist _).mem inside)

theorem mem_of_mem_unmarked {text : List Char} {character : Char}
    (inside : character ∈ unmarked text) : character ∈ text := by
  have leading {mark text rest : List Char} (found : Text.dropLeading? mark text = some rest) :
      rest ⊆ text := by
    rw [Text.dropLeading?_eq_some_iff.mp found]
    exact List.subset_append_right mark rest
  have arrow : ∀ rest, dropStartMark? text = some rest → rest ⊆ text := by
    intro rest found
    rw [dropStartMark?] at found
    cases utf8 : Text.dropLeading? startMark text with
    | some after => exact leading (utf8.trans (by rwa [utf8] at found))
    | none => exact leading (by rwa [utf8] at found)
  exact mem_of_mem_dropMark arrow (mem_of_mem_dropMark (fun _ => leading) inside)

theorem isWord_of_row {line columnCount : Nat} {text : List Char} {found : Row}
    (plain : ∀ character, character ∈ text → character ≠ '#')
    (read : row line columnCount text = .ok found) : IsWord found.state := by
  rcases row_eq_ok_iff.mp read with ⟨filled, _, _, state, _⟩
  rw [state]
  refine isWord_ofList filled fun character inside => ⟨?_, plain character ?_⟩
  · rw [stateText] at inside
    have kept := List.mem_takeWhile_imp inside
    simpa using kept
  · exact mem_of_mem_unmarked ((List.takeWhile_sublist _).mem inside)

theorem isWord_of_mem_words {text word : List Char}
    (plain : ∀ character, character ∈ text → character ≠ '#') (member : word ∈ Text.words text) :
    IsWord (String.ofList word) := by
  rcases List.mem_filter.mp member with ⟨piece, filled⟩
  refine isWord_ofList (by simpa using filled) fun character inside => ⟨?_, plain character ?_⟩
  · exact Text.not_separator_of_mem_splitWhere piece inside
  · exact Text.mem_of_mem_splitWhere piece inside

/-! ## What is read -/

/-- Nothing in a table that was read is without a row or a column, except targets. -/
structure Written (automaton : Automaton) : Prop where
  starting : automaton.starting ∈ automaton.states
  accepting : ∀ state, state ∈ automaton.accepting → state ∈ automaton.states
  states : ∀ state, state ∈ automaton.states → IsWord state
  symbols : ∀ symbol, symbol ∈ automaton.alphabet → IsWord symbol ∧ symbol ≠ Label.epsilonText

theorem mem_states_ofRows {starting state : String} {accepting alphabet : List String}
    {rows : List (String × List (Label × List String))} :
    state ∈ (ofRows starting accepting alphabet rows).states ↔ state ∈ rows.map Prod.fst := by
  have listed : state ∈ (ofRows starting accepting alphabet rows).states ↔
      state ∈ (rows.map fun row => (row.1, rowOfColumns row.2)).map Prod.fst := SortedMap.mem_ofList
  rw [listed, List.map_map]
  rfl

theorem Layout.Holds.written {text : String} {automaton : Automaton} {layout : Layout}
    (holds : layout.Holds text automaton) : Written automaton := by
  rcases rowsFrom_eq_ok_iff.mp holds.rows with ⟨each, _⟩
  have listed {found : Row} (member : found ∈ layout.rows) :
      found.state ∈ automaton.states := by
    rw [holds.result, mem_states_ofRows, List.map_map]
    exact List.mem_map.mpr ⟨found, member, rfl⟩
  have plain {line : Nat} {content : List Char}
      (member : (line, content) ∈ (layout.line, layout.header) :: layout.body) :
      ∀ character, character ∈ content → character ≠ '#' :=
    fun _ => not_hash_of_mem_line (holds.lines ▸ member)
  refine ⟨?_, fun state accepts => ?_, fun state declared => ?_, fun symbol declared => ?_⟩
  · have start := listed (List.mem_of_find?_eq_some holds.start)
    have same : automaton.starting = layout.start.state := by
      rw [holds.result]
      rfl
    rwa [same]
  · rw [holds.result] at accepts
    rcases List.mem_map.mp (SortedSet.mem_ofList.mp accepts) with ⟨found, member, rfl⟩
    exact listed (List.mem_filter.mp member).1
  · rw [holds.result, mem_states_ofRows, List.map_map] at declared
    rcases List.mem_map.mp declared with ⟨found, member, rfl⟩
    rcases exists_item each member with ⟨⟨line, content⟩, inBody, read⟩
    exact isWord_of_row (plain (List.mem_cons_of_mem _ inBody)) read
  · rw [holds.result] at declared
    rcases List.mem_filterMap.mp (SortedSet.mem_ofList.mp declared) with ⟨label, member, isSymbol⟩
    rcases List.mem_map.mp member with ⟨word, inHeader, rfl⟩
    rw [Label.ofText] at isSymbol
    split at isSymbol
    case isTrue => cases isSymbol
    case isFalse notEmpty =>
      cases isSymbol
      exact ⟨isWord_of_mem_words (plain List.mem_cons_self) inHeader, notEmpty⟩

theorem written_of_read {text : String} {automaton : Automaton}
    (found : read text = .ok automaton) : Written automaton := by
  rcases read_eq_ok_iff.mp found with ⟨_, holds⟩
  exact holds.written

/-- A symbol with `#` never comes out of a table, where a comment begins there. -/
theorem read_ne_of_hash {automaton : Automaton} {symbol : String}
    (declared : symbol ∈ automaton.alphabet) (inside : '#' ∈ symbol.toList) (text : String) :
    read text ≠ .ok automaton := fun found =>
  (((written_of_read found).symbols symbol declared).1.solid _ inside).2 rfl

end FormalLanguages.Automaton.Table
