import FormalLanguages.Proofs.Automaton.Determinism
import FormalLanguages.Proofs.Automaton.Table.Printing
import Mathlib.Data.List.Nodup

namespace FormalLanguages.Automaton.Table

/-! # Printed tables are read back

A table is read back as the automaton that was printed if its names are legible, it has a
column, and no symbol begins a comment. -/

variable {automaton : Automaton} {state : String}

/-! ## Legible automata -/

/-- Names that a table can hold. Commas stand between several targets, so they may only be
part of a name where no cell has several. -/
structure Legible (automaton : Automaton) : Prop where
  valid : automaton.Valid
  symbols : ∀ symbol, symbol ∈ automaton.alphabet → symbol ≠ "" ∧ symbol ≠ Label.epsilonText ∧
    ∀ character, character ∈ symbol.toList → Text.isBlank character = false
  states : ∀ state, state ∈ automaton.states → IsStateName state
  listed : automaton.Deterministic ∨
    ∀ state, state ∈ automaton.states → ',' ∉ state.toList

theorem mem_columnLabels {label : Label} : label ∈ columnLabels automaton ↔
    (label = .epsilon ∧ ∃ state target, Edge.mk .epsilon target ∈ automaton.edges state) ∨
      ∃ symbol, symbol ∈ automaton.alphabet ∧ label = .symbol symbol := by
  have silent : automaton.kind = .withEpsilon ↔ automaton.hasEpsilon = true := by
    rw [kind]
    split
    case isTrue holds => exact iff_of_true rfl holds
    case isFalse fails => exact iff_of_false (by split <;> decide) fails
  simp only [columnLabels, silent, ← hasEpsilon_iff]
  split <;> simp [*, eq_comm, SortedSet.mem_toList]

theorem columnLabels_eq_nil_iff : columnLabels automaton = [] ↔
    (∀ state target, ¬ Edge.mk .epsilon target ∈ automaton.edges state) ∧
      automaton.alphabet = ∅ := by
  rw [List.eq_nil_iff_forall_not_mem]
  constructor
  · intro none
    refine ⟨fun state target edge => none .epsilon ?_, SortedSet.eq_empty fun symbol declared =>
      none (.symbol symbol) (mem_columnLabels.mpr (.inr ⟨symbol, declared, rfl⟩))⟩
    exact mem_columnLabels.mpr (.inl ⟨rfl, state, target, edge⟩)
  · rintro ⟨loud, empty⟩ label listed
    rcases mem_columnLabels.mp listed with ⟨_, state, target, edge⟩ | ⟨symbol, declared, _⟩
    · exact loud state target edge
    · rw [empty] at declared
      exact SortedSet.not_mem_empty declared

theorem nodup_columnLabels : (columnLabels automaton).Nodup := by
  have symbols : (automaton.alphabet.toList.map Label.symbol).Nodup :=
    (SortedSet.nodup_toList _).map fun _ _ => Label.symbol.inj
  rw [columnLabels]
  split
  · exact List.nodup_cons.mpr ⟨by simp, symbols⟩
  · exact symbols

theorem filterMap_columnLabels :
    (columnLabels automaton).filterMap Label.symbol? = automaton.alphabet.toList := by
  have symbols : (automaton.alphabet.toList.map Label.symbol).filterMap Label.symbol? =
      automaton.alphabet.toList := by
    rw [List.filterMap_map]
    exact List.filterMap_some
  rw [columnLabels]
  split
  · exact symbols
  · exact symbols

/-- The order of the rows. -/
def listedStates (automaton : Automaton) : List String :=
  Name.startFirst automaton.states.toList (some automaton.starting)

theorem mem_listedStates : state ∈ listedStates automaton ↔ state ∈ automaton.states :=
  (Name.startFirst_perm _ _).mem_iff

theorem nodup_listedStates : (listedStates automaton).Nodup :=
  (Name.startFirst_perm _ _).nodup_iff.mpr (SortedSet.nodup_toList _)

/-! ## The row of a state -/

theorem takeWhile_eq_self {text : List Char} (plain : '#' ∉ text) :
    text.takeWhile (· ≠ '#') = text :=
  List.takeWhile_eq_self_iff.mpr fun _ inside =>
    decide_eq_true fun same => plain (same ▸ inside)

def printedRow (automaton : Automaton) (state : String) : Row where
  state := state
  isStart := decide (state = automaton.starting)
  isAccepting := automaton.isAccepting state
  columns := (columnLabels automaton).map fun label => (automaton.targets state label).toList

/-- All rows of a table are as wide as its header. -/
def widths (automaton : Automaton) : List Nat := columnWidths (cells automaton)

theorem length_widths (automaton : Automaton) :
    (widths automaton).length = (columnLabels automaton).length + 1 := by
  refine length_columnWidths (List.cons_ne_nil _ _) fun row member => ?_
  rcases List.mem_cons.mp member with rfl | listed
  · rw [headerCells, List.length_cons, List.length_map]
  · rcases List.mem_map.mp listed with ⟨state, _, rfl⟩
    rw [rowCells, List.length_cons, List.length_map]

def rowText (automaton : Automaton) (state : String) : List Char :=
  (line (widths automaton) (rowCells automaton state)).toList

def headerText (automaton : Automaton) : List Char :=
  (line (widths automaton) (headerCells automaton)).toList

section Legible

variable (legible : Legible automaton)

include legible

theorem Legible.isStateName_of_mem_targets {label : Label} {target : String}
    (member : target ∈ automaton.targets state label) : IsStateName target :=
  legible.states target (legible.valid.targets _ _ _ (mem_targets.mp member))

theorem Legible.readsAs_cell (state : String) (label : Label) :
    ReadsAs (targetsCell automaton.isDeterministic (automaton.targets state label)).toList
      (automaton.targets state label).toList := by
  refine readsAs_targetsCell (fun _ => legible.isStateName_of_mem_targets) ?_
  refine legible.listed.imp (fun deterministic => ⟨deterministic_iff.mpr deterministic, ?_⟩)
    fun free target member => free target (legible.valid.targets _ _ _ (mem_targets.mp member))
  refine Nat.le_of_not_lt fun several => ?_
  rcases SortedSet.one_lt_size_iff.mp several with ⟨first, second, toFirst, toSecond, different⟩
  exact different (deterministic.unique state label first second (mem_targets.mp toFirst)
    (mem_targets.mp toSecond))

/-- The line of a state. -/
theorem Legible.exists_rowText (declared : state ∈ automaton.states) :
    ∃ text, rowText automaton state =
        marks (decide (state = automaton.starting)) (automaton.isAccepting state) ++
          (state.toList ++ text) ∧
      Text.Spaced ((columnLabels automaton).map fun label =>
        (targetsCell automaton.isDeterministic (automaton.targets state label)).toList) text ∧
      Text.EndsSolid (rowText automaton state) := by
  have ends : Text.EndsSolid (stateCell automaton state).toList := by
    rw [toList_stateCell]
    exact (legible.states state declared).endsSolid.append _
  have width : (widths automaton).length = ((columnLabels automaton).map fun label =>
      targetsCell automaton.isDeterministic (automaton.targets state label)).length + 1 := by
    rw [length_widths, List.length_map]
  rcases exists_toList_line width (List.forall_mem_map.mpr fun label _ =>
      endsSolid_targetsCell fun _ => legible.isStateName_of_mem_targets)
    (fun _ => ends) with ⟨text, whole, spaced, solid⟩
  refine ⟨text, ?_, ?_, ?_⟩
  · rw [rowText, rowCells, whole, toList_stateCell, List.append_assoc]
  · rwa [List.map_map] at spaced
  · rwa [rowText, rowCells, whole]

theorem Legible.row_rowText (declared : state ∈ automaton.states) {columnCount : Nat}
    (few : (columnLabels automaton).length ≤ columnCount) (line : Nat) :
    row line columnCount (rowText automaton state) = .ok (printedRow automaton state) := by
  rcases legible.exists_rowText declared with ⟨text, whole, spaced, _⟩
  rw [whole]
  refine row_marked (legible.states state declared) spaced.beginsBlank (columns_spaced spaced ?_)
    (by rwa [List.length_map])
  rw [List.forall₂_map_left_iff, List.forall₂_map_right_iff, List.forall₂_same]
  exact fun label _ => legible.readsAs_cell state label

theorem Legible.not_mem_rowText (declared : state ∈ automaton.states) {character : Char}
    (foreign : character ∉ signs)
    (clean : ∀ state, state ∈ automaton.states → character ∉ state.toList) :
    character ∉ rowText automaton state := by
  intro inside
  have width : (widths automaton).length = (rowCells automaton state).length := by
    rw [length_widths, rowCells, List.length_cons, List.length_map]
  rcases mem_line width inside with rfl | ⟨cell, member, own⟩
  · exact foreign (by decide)
  · rcases List.mem_cons.mp member with rfl | inColumns
    · rw [toList_stateCell] at own
      rcases List.mem_append.mp own with inMarks | inName
      · exact foreign (mem_signs_of_mem_marks _ _ _ inMarks)
      · exact clean state declared inName
    · rcases List.mem_map.mp inColumns with ⟨label, _, rfl⟩
      exact not_mem_targetsCell foreign (fun target member =>
        clean target (legible.valid.targets _ _ _ (mem_targets.mp member))) own

theorem Legible.clean_of_blank {character : Char} (blank : Text.isBlank character = true)
    (state : String) (declared : state ∈ automaton.states) : character ∉ state.toList :=
  fun inside => Bool.false_ne_true (((legible.states state declared).solid inside).symm.trans blank)

theorem Legible.withoutComment_rowText (declared : state ∈ automaton.states) :
    withoutComment (rowText automaton state) = rowText automaton state := by
  have plain : '#' ∉ rowText automaton state :=
    legible.not_mem_rowText declared (by decide) fun state declared inside =>
      ((legible.states state declared).plain _ inside).2 rfl
  rcases legible.exists_rowText declared with ⟨text, whole, _, ends⟩
  rcases exists_solid_marked (legible.states state declared) (decide (state = automaton.starting))
    (automaton.isAccepting state) text with ⟨head, tail, spelled, solid⟩
  rw [withoutComment, takeWhile_eq_self plain]
  rw [whole, spelled] at ends ⊢
  exact Text.trim_eq_of_ends solid ends

/-! ## The header -/

theorem Legible.solid_label {label : Label} (listed : label ∈ columnLabels automaton) :
    label.text.toList ≠ [] ∧
      ∀ character, character ∈ label.text.toList → Text.isBlank character = false := by
  rcases mem_columnLabels.mp listed with ⟨rfl, _⟩ | ⟨symbol, declared, rfl⟩
  · exact ⟨by decide, by decide⟩
  · rcases legible.symbols symbol declared with ⟨filled, _, solid⟩
    exact ⟨fun none => filled (String.toList_eq_nil_iff.mp none), solid⟩

theorem Legible.ofText_label {label : Label} (listed : label ∈ columnLabels automaton) :
    Label.ofText label.text = label := by
  rcases mem_columnLabels.mp listed with ⟨rfl, _⟩ | ⟨symbol, declared, rfl⟩
  · rfl
  · exact if_neg (legible.symbols symbol declared).2.1

omit legible in
theorem length_headerCells (automaton : Automaton) :
    (widths automaton).length = ((columnLabels automaton).map Label.text).length + 1 := by
  rw [length_widths, List.length_map]

omit legible in
theorem not_mem_headerText {character : Char} (foreign : character ∉ signs)
    (clean : ∀ label, label ∈ columnLabels automaton → character ∉ label.text.toList) :
    character ∉ headerText automaton := by
  intro inside
  rcases mem_line (length_headerCells automaton) inside with rfl | ⟨cell, member, own⟩
  · exact foreign (by decide)
  · rcases List.mem_cons.mp member with rfl | listed
    · cases own
    · rcases List.mem_map.mp listed with ⟨label, isColumn, rfl⟩
      exact clean label isColumn own

theorem Legible.words_headerText (columns : columnLabels automaton ≠ [])
    (plain : ∀ symbol, symbol ∈ automaton.alphabet → '#' ∉ symbol.toList) :
    Text.words (withoutComment (headerText automaton)) =
      (columnLabels automaton).map fun label => label.text.toList := by
  have clean : ∀ label, label ∈ columnLabels automaton → '#' ∉ label.text.toList := by
    intro label listed
    rcases mem_columnLabels.mp listed with ⟨rfl, _⟩ | ⟨symbol, declared, rfl⟩
    · decide
    · exact plain symbol declared
  have solid : ∀ cell, cell ∈ (columnLabels automaton).map (fun label => label.text.toList) →
      cell ≠ [] ∧ ∀ character, character ∈ cell → Text.isBlank character = false :=
    List.forall_mem_map.mpr fun label => legible.solid_label
  rcases exists_toList_line (length_headerCells automaton)
    (List.forall_mem_map.mpr fun label listed => Text.endsSolid_of_solid
      (legible.solid_label listed).1 (legible.solid_label listed).2)
    (fun none => absurd (List.map_eq_nil_iff.mp none) columns) with ⟨text, whole, spaced, _⟩
  rw [List.map_map] at spaced
  rw [withoutComment, takeWhile_eq_self (not_mem_headerText (by decide) clean), headerText,
    headerCells, whole]
  exact spaced.words_trim (List.map_eq_nil_iff.not.mpr columns) solid

/-! ## The whole table -/

theorem Legible.lines_print : Text.lines (print automaton).toList =
    headerText automaton :: (listedStates automaton).map (rowText automaton) := by
  have unbroken : ∀ text, text ∈ headerText automaton ::
      (listedStates automaton).map (rowText automaton) →
      ∀ character, character ∈ text → decide (character = '\n') = false := by
    intro text member character inside
    refine decide_eq_false fun same => ?_
    rw [same] at inside
    rcases List.mem_cons.mp member with isHeader | listed
    · rw [isHeader] at inside
      refine not_mem_headerText (by decide) (fun label listed own => ?_) inside
      exact absurd ((legible.solid_label listed).2 _ own) (by decide)
    · rcases List.mem_map.mp listed with ⟨state, isRow, spelled⟩
      rw [← spelled] at inside
      exact legible.not_mem_rowText (mem_listedStates.mp isRow) (by decide)
        (legible.clean_of_blank (by decide)) inside
  have texts : (print automaton).toList = List.intercalate ['\n']
      (headerText automaton :: (listedStates automaton).map (rowText automaton)) := by
    have joined : print automaton = Text.joined "\n" ((headerCells automaton ::
        (listedStates automaton).map (rowCells automaton)).map (line (widths automaton))) := rfl
    rw [joined, Text.toList_joined, List.map_map, List.map_cons, List.map_map]
    rfl
  rw [Text.lines, texts, Text.splitWhere_intercalate (decide_eq_true rfl) (List.cons_ne_nil _ _)
    unbroken]

theorem Legible.map_snd_numberedLines_print :
    (Text.numberedLines withoutComment (print automaton)).map Prod.snd =
      (withoutComment (headerText automaton) ::
        (listedStates automaton).map (rowText automaton)).filter fun line => !line.isEmpty := by
  have uncommented : (listedStates automaton).map (withoutComment ∘ rowText automaton) =
      (listedStates automaton).map (rowText automaton) := by
    refine List.map_congr_left fun state listed => ?_
    rw [Function.comp_apply, legible.withoutComment_rowText (mem_listedStates.mp listed)]
  refine (Text.map_snd_numberedLines _ _).trans ?_
  rw [legible.lines_print, List.map_cons, List.map_map, uncommented]

/-! ## What is read back -/

omit legible in
theorem find?_start (starts : automaton.starting ∈ automaton.states) :
    ∃ start, ((listedStates automaton).map (printedRow automaton)).find? Row.isStart = some start ∧
      start.state = automaton.starting := by
  cases found : ((listedStates automaton).map (printedRow automaton)).find? Row.isStart with
  | none =>
      have listed : printedRow automaton automaton.starting ∈
          (listedStates automaton).map (printedRow automaton) :=
        List.mem_map_of_mem (mem_listedStates.mpr starts)
      exact absurd (decide_eq_true rfl) (List.find?_eq_none.mp found _ listed)
  | some start =>
      refine ⟨start, rfl, ?_⟩
      rcases List.mem_map.mp (List.mem_of_find?_eq_some found) with ⟨state, _, rfl⟩
      have isStart := List.find?_some found
      exact of_decide_eq_true isStart

theorem Legible.mem_columnLabels_of_edge {edge : Edge}
    (member : edge ∈ automaton.edges state) : edge.label ∈ columnLabels automaton := by
  rcases edge with ⟨label, target⟩
  refine mem_columnLabels.mpr ?_
  cases label with
  | epsilon => exact .inl ⟨rfl, state, target, member⟩
  | symbol symbol => exact .inr ⟨symbol, legible.valid.symbols _ _ _ member, rfl⟩

/-- A row holds the edges of its state. -/
theorem Legible.rowOfColumns_printedRow (state : String) :
    rowOfColumns ((columnLabels automaton).zip (printedRow automaton state).columns) =
      automaton.edges state := by
  have columns : (columnLabels automaton).zip (printedRow automaton state).columns =
      (columnLabels automaton).map fun label =>
        (label, (automaton.targets state label).toList) := by
    refine Eq.trans ?_ (List.zip_map' (f := id))
    rw [List.map_id]
    rfl
  have keys : (((columnLabels automaton).map fun label =>
      (label, (automaton.targets state label).toList)).map Prod.fst).Nodup := by
    rw [List.map_map]
    exact (List.map_id (columnLabels automaton)).symm ▸ nodup_columnLabels
  refine SortedSet.ext fun edge => ?_
  rw [rowOfColumns, columns, SortedSet.mem_ofList, List.mem_flatMap]
  constructor
  · rintro ⟨⟨label, targets⟩, member, inTargets⟩
    rcases List.mem_map.mp inTargets with ⟨target, listed, rfl⟩
    have found := (SortedMap.get?_ofList keys).mp (SortedMap.get?_eq_some_iff.mpr member)
    rcases List.mem_map.mp found with ⟨column, _, same⟩
    cases same
    exact mem_targets.mp (SortedSet.mem_toList.mp listed)
  · intro member
    have listed := List.mem_map_of_mem (f := fun label =>
      (label, (automaton.targets state label).toList)) (legible.mem_columnLabels_of_edge member)
    refine ⟨_, SortedMap.get?_eq_some_iff.mp ((SortedMap.get?_ofList keys).mpr listed), ?_⟩
    exact List.mem_map.mpr ⟨edge.target, SortedSet.mem_toList.mpr (mem_targets.mpr member), rfl⟩

omit legible in
theorem rows_eq : SortedMap.ofList ((listedStates automaton).map fun state =>
    (state, automaton.edges state)) = automaton.rows := by
  have keys : (((listedStates automaton).map fun state =>
      (state, automaton.edges state)).map Prod.fst).Nodup := by
    rw [List.map_map]
    exact (List.map_id (listedStates automaton)).symm ▸ nodup_listedStates
  refine SortedMap.ext fun state => Option.ext fun row => ?_
  rw [SortedMap.get?_ofList keys, List.mem_map]
  constructor
  · rintro ⟨other, listed, same⟩
    cases same
    rcases mem_states_iff.mp (mem_listedStates.mp listed) with ⟨row, found⟩
    rw [found, edges_of_get? found]
  · intro found
    exact ⟨state, mem_listedStates.mpr (mem_states_iff.mpr ⟨row, found⟩),
      by rw [edges_of_get? found]⟩

theorem Legible.ofRows_eq : ofRows automaton.starting
    ((((listedStates automaton).map (printedRow automaton)).filter Row.isAccepting).map Row.state)
    ((columnLabels automaton).filterMap Label.symbol?)
    (((listedStates automaton).map (printedRow automaton)).map fun row =>
      (row.state, (columnLabels automaton).zip row.columns)) = automaton := by
  have accepting : SortedSet.ofList ((((listedStates automaton).map
      (printedRow automaton)).filter Row.isAccepting).map Row.state) = automaton.accepting := by
    refine SortedSet.ext fun state => ?_
    simp only [SortedSet.mem_ofList, List.mem_map, List.mem_filter]
    constructor
    · rintro ⟨_, ⟨⟨state, _, rfl⟩, accepts⟩, rfl⟩
      exact of_decide_eq_true accepts
    · intro accepts
      exact ⟨_, ⟨⟨state, mem_listedStates.mpr (legible.valid.accepting state accepts), rfl⟩,
        decide_eq_true accepts⟩, rfl⟩
  have alphabet : SortedSet.ofList ((columnLabels automaton).filterMap Label.symbol?) =
      automaton.alphabet := by
    refine SortedSet.ext fun symbol => ?_
    rw [filterMap_columnLabels, SortedSet.mem_ofList, SortedSet.mem_toList]
  have rows : (((listedStates automaton).map (printedRow automaton)).map fun row =>
      (row.state, (columnLabels automaton).zip row.columns)).map
        (fun row => (row.1, rowOfColumns row.2)) =
      (listedStates automaton).map fun state => (state, automaton.edges state) := by
    rw [List.map_map, List.map_map]
    refine List.map_congr_left fun state _ => ?_
    exact congrArg (Prod.mk state) (legible.rowOfColumns_printedRow state)
  have built (starting : String) (accepting alphabet : List String)
      (rows : List (String × List (Label × List String))) :
      ofRows starting accepting alphabet rows = ⟨starting, SortedSet.ofList accepting,
        SortedSet.ofList alphabet,
        SortedMap.ofList (rows.map fun row => (row.1, rowOfColumns row.2))⟩ := rfl
  rw [built, accepting, alphabet, rows, rows_eq]

theorem Legible.filter_rowText : ((listedStates automaton).map (rowText automaton)).filter
    (fun line => !line.isEmpty) = (listedStates automaton).map (rowText automaton) := by
  refine List.filter_eq_self.mpr (List.forall_mem_map.mpr fun state listed => ?_)
  rcases legible.exists_rowText (mem_listedStates.mp listed) with ⟨_, _, _, ends⟩
  simpa using ends.ne_nil

/-- The lines of states are read as their rows. -/
theorem Legible.rowsFrom_body {states : List String} {body : List (Nat × List Char)}
    {columnCount : Nat} (declared : ∀ state, state ∈ states → state ∈ automaton.states)
    (nodup : states.Nodup) (few : (columnLabels automaton).length ≤ columnCount)
    (texts : body.map Prod.snd = states.map (rowText automaton)) :
    rowsFrom columnCount [] body = .ok (states.map (printedRow automaton)) := by
  refine rowsFrom_eq_ok_iff.mpr ⟨?_, ?_, fun _ _ => List.not_mem_nil⟩
  · have each : List.Forall₂ (fun text state => ∀ line, row line columnCount text =
        .ok (printedRow automaton state)) (body.map Prod.snd) states := by
      rw [texts, List.forall₂_map_left_iff, List.forall₂_same]
      exact fun state listed => legible.row_rowText (declared state listed) few
    rw [List.forall₂_map_right_iff]
    exact (List.forall₂_map_left_iff.mp each).imp fun numbered _ read => read numbered.1
  · rw [List.map_map]
    exact (List.map_id states).symm ▸ nodup

/-- The header and the rows are those of the automaton that was printed. -/
theorem Legible.read_print (columns : columnLabels automaton ≠ [])
    (plain : ∀ symbol, symbol ∈ automaton.alphabet → '#' ∉ symbol.toList) :
    read (print automaton) = .ok automaton := by
  have words := legible.words_headerText columns plain
  have filled : withoutComment (headerText automaton) ≠ [] := by
    intro none
    rw [none] at words
    exact columns (List.map_eq_nil_iff.mp words.symm)
  have texts := legible.map_snd_numberedLines_print
  rw [List.filter_cons_of_pos (by simpa using filled), legible.filter_rowText] at texts
  rcases List.map_eq_cons_iff.mp texts with ⟨⟨line, header⟩, body, lines, isHeader, bodyTexts⟩
  rcases find?_start legible.valid.starting with ⟨start, found, isStart⟩
  have labels : ((Text.words header).map fun word => Label.ofText (String.ofList word)) =
      columnLabels automaton := by
    have ofText : (columnLabels automaton).map (fun label => Label.ofText label.text) =
        columnLabels automaton :=
      (List.map_congr_left fun _ => legible.ofText_label).trans (List.map_id _)
    have whole : header = withoutComment (headerText automaton) := isHeader
    rw [whole, words, List.map_map]
    refine Eq.trans (List.map_congr_left fun label _ => ?_) ofText
    rw [Function.comp_apply, String.ofList_toList]
  refine read_eq_ok_iff.mpr ⟨⟨line, header, body, (listedStates automaton).map
    (printedRow automaton), start⟩, lines, ?_, found, ?_⟩
  · rw [Layout.labels, labels]
    exact legible.rowsFrom_body (fun _ => mem_listedStates.mp) nodup_listedStates
      (Nat.le_refl _) bodyTexts
  · rw [isStart, Layout.labels, labels]
    exact legible.ofRows_eq.symm

/-! ## Without columns -/

omit legible in
/-- The header of a table without columns is blank. -/
theorem withoutComment_headerText (none : columnLabels automaton = []) :
    withoutComment (headerText automaton) = [] := by
  have blank : ∀ character, character ∈ headerText automaton →
      Text.isBlank character = true := by
    intro character inside
    rcases mem_line (length_headerCells automaton) inside with rfl | ⟨cell, member, own⟩
    · rfl
    · rw [headerCells, none, List.map_nil, List.mem_singleton] at member
      rw [member] at own
      cases own
  have skipped : Text.trimStart ((headerText automaton).takeWhile (· ≠ '#')) = [] :=
    List.dropWhile_eq_nil_iff.mpr fun character inside =>
      blank character ((List.takeWhile_sublist _).mem inside)
  rw [withoutComment, Text.trim, skipped]
  rfl

/-- The row of the start state is taken for the header, and no start state is left. -/
theorem Legible.read_print_of_no_columns (none : columnLabels automaton = []) :
    read (print automaton) = .error .missingStart := by
  rcases Name.startFirst_eq_cons (SortedSet.mem_toList.mpr legible.valid.starting) with
    ⟨others, first⟩
  have order : listedStates automaton = automaton.starting :: others := first
  have texts := legible.map_snd_numberedLines_print
  rw [withoutComment_headerText none, List.filter_cons_of_neg (by simp), legible.filter_rowText,
    order, List.map_cons] at texts
  rcases List.map_eq_cons_iff.mp texts with ⟨⟨line, header⟩, body, lines, _, bodyTexts⟩
  have distinct : (listedStates automaton).Nodup := nodup_listedStates
  rcases List.nodup_cons.mp (order ▸ distinct) with ⟨apart, nodup⟩
  have declared : ∀ state, state ∈ others → state ∈ automaton.states := fun state listed =>
    mem_listedStates.mp (order ▸ List.mem_cons_of_mem _ listed)
  have rows {columnCount : Nat} : rowsFrom columnCount [] body =
      .ok (others.map (printedRow automaton)) :=
    legible.rowsFrom_body declared nodup (by rw [none]; exact Nat.zero_le _) bodyTexts
  have absent : (others.map (printedRow automaton)).find? Row.isStart = Option.none := by
    refine List.find?_eq_none.mpr (List.forall_mem_map.mpr fun state listed isStart => apart ?_)
    have same : state = automaton.starting := of_decide_eq_true isStart
    exact same ▸ listed
  exact read_eq_missingStart lines rows absent

/-- A legible automaton comes back from its table, unless the table has no columns. -/
theorem Legible.read_print_eq
    (plain : ∀ symbol, symbol ∈ automaton.alphabet → '#' ∉ symbol.toList) :
    read (print automaton) =
      if columnLabels automaton = [] then .error .missingStart else .ok automaton := by
  split
  case isTrue none => exact legible.read_print_of_no_columns none
  case isFalse columns => exact legible.read_print columns plain

end Legible

end FormalLanguages.Automaton.Table
