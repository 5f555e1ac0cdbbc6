import FormalLanguages.Command.Session
import FormalLanguages.Proofs.Automaton.Table.Rereading
import FormalLanguages.Proofs.Automaton.Table.ResultNames
import FormalLanguages.Proofs.Regex.ParsedNames
import FormalLanguages.Proofs.Regex.Synthesised

namespace FormalLanguages

/-! # Tables that commands print

A table that one command prints is the input of the next. -/

variable {automaton : Automaton} {content file text : String} {files : Session.Files}

/-! ## What is printed -/

namespace Session

/-- The table of the automaton is all that the command prints. -/
def PrintsTable (files : Files) (command : Command) (automaton : Automaton) : Prop :=
  (carryOut files false command).run ⟨"", 0⟩ =
    (.ok (), ⟨Automaton.Table.print automaton ++ "\n", 0⟩)

theorem printsTable_fromRegex {regex : Regex} (found : Regex.parse text = .ok regex) :
    PrintsTable files (.fromRegex text) regex.synthesise.result := by
  rw [PrintsTable, carryOut, readRegex, found]
  rfl

section Table

variable {observed : Observed Automaton Automaton} (present : files file = some content)
  (read : Automaton.Table.read content = .ok automaton)

theorem determinise_eq (determinised : automaton.determinise = .ok observed) :
    determinise false automaton = pure observed.result := by
  rw [determinise, determinised]
  rfl

theorem minimise_eq (minimised : automaton.minimise = .ok observed) :
    minimise false automaton = pure observed.result := by
  rw [minimise, minimised]
  rfl

include present read

theorem readTable_eq : readTable files file = pure automaton := by
  rw [readTable, readFile, present]
  change require _ _ (Automaton.Table.read content) = _
  rw [read]
  rfl

theorem printsTable_determinise (determinised : automaton.determinise = .ok observed) :
    PrintsTable files (.determinise file) observed.result := by
  rw [PrintsTable, carryOut, readTable_eq present read]
  change (determinise false automaton >>= printAutomaton).run _ = _
  rw [determinise_eq determinised]
  rfl

/-- What is not deterministic is determinised before it is minimised. -/
theorem printsTable_minimise {prepared : Automaton} (minimised : prepared.minimise = .ok observed)
    (before : automaton.isDeterministic = true ∧ prepared = automaton ∨
      automaton.isDeterministic = false ∧ determinise false automaton = pure prepared) :
    PrintsTable files (.minimise file) observed.result := by
  rw [PrintsTable, carryOut, readTable_eq present read]
  change (if automaton.isDeterministic then minimise false automaton >>= printAutomaton
    else determinise false automaton >>= fun prepared =>
      minimise false prepared >>= printAutomaton).run _ = _
  rcases before with ⟨deterministic, rfl⟩ | ⟨free, determinised⟩
  · rw [if_pos deterministic, minimise_eq minimised]
    rfl
  · rw [if_neg (Bool.eq_false_iff.mp free), determinised]
    change (minimise false prepared >>= printAutomaton).run _ = _
    rw [minimise_eq minimised]
    rfl

end Table

end Session

/-! ## What is read back -/

namespace Automaton.Table

section Results

variable (symbols : ∀ symbol, symbol ∈ automaton.alphabet →
  IsWord symbol ∧ symbol ≠ Label.epsilonText)

include symbols

theorem loud_of_words : ¬ Label.epsilonText ∈ automaton.alphabet := fun declared =>
  (symbols _ declared).2 rfl

/-- Deterministic automata have columns for their symbols only. -/
theorem read_print_of_total {result : Automaton} (total : result.Total)
    (alphabet : result.alphabet = automaton.alphabet)
    (states : ∀ state, state ∈ result.states → IsStateName state) :
    read (print result ++ "\n") =
      if automaton.alphabet = ∅ then .error .missingStart else .ok result := by
  rw [← alphabet] at symbols ⊢
  have legible : Legible result := {
    valid := total.valid
    symbols := fun symbol declared => ⟨(symbols symbol declared).1.filled,
      (symbols symbol declared).2, fun _ inside => ((symbols symbol declared).1.solid _ inside).1⟩
    states := states
    listed := .inl total.deterministic }
  rw [read_append_newline, legible.read_print_eq fun symbol declared inside =>
    ((symbols symbol declared).1.solid _ inside).2 rfl]
  simp only [columnLabels_eq_nil_iff, total.deterministic.loud, not_false_eq_true, implies_true,
    true_and]

variable (valid : automaton.Valid)

include valid

theorem read_print_determinised (states : ∀ state, state ∈ automaton.states → IsStateName state) :
    read (print (Subset.construct automaton).result ++ "\n") =
      if automaton.alphabet = ∅ then .error .missingStart
      else .ok (Subset.construct automaton).result := by
  have alphabet := Subset.alphabet_result (loud_of_words symbols)
  refine read_print_of_total symbols (total_determinised (loud_of_words symbols)) alphabet fun state declared => ?_
  exact Subset.holds_of_mem_states_result valid isStateName_keptByCounting
    isWholeName_emptySetName.toIsStateName isStateName_joined states declared

theorem read_print_minimised (deterministic : automaton.Deterministic)
    (states : ∀ state, state ∈ automaton.states → IsWholeName state) :
    read (print (Minimal.construct automaton).result ++ "\n") =
      if automaton.alphabet = ∅ then .error .missingStart
      else .ok (Minimal.construct automaton).result :=
  read_print_of_total symbols (Minimal.total_construct valid deterministic)
    (Minimal.alphabet_construct valid deterministic) fun _ declared =>
      Minimal.isStateName_of_mem_states_construct valid deterministic states declared

end Results

end Automaton.Table

namespace Regex

instance (regex : Regex) : Decidable regex.Barren :=
  inferInstanceAs (Decidable (∀ factor, factor ∈ regex.factors → factor = empty))

theorem columnLabels_synthesise {regex : Regex} :
    Automaton.Table.columnLabels regex.synthesise.result = [] ↔ regex.Barren := by
  rw [Automaton.Table.columnLabels_eq_nil_iff, ← no_edges_synthesise_iff]
  constructor
  · rintro ⟨loud, empty⟩ state ⟨label, target⟩ edge
    cases label with
    | epsilon => exact loud state target edge
    | symbol name =>
        have declared := (Synthesis.valid_synthesise regex).symbols state name target edge
        rw [empty] at declared
        exact SortedSet.not_mem_empty declared
  · intro none
    refine ⟨fun state target => none state _, ?_⟩
    rw [Synthesis.alphabet_synthesise, symbols, (no_edges_synthesise_iff.mp none).names_eq_nil]
    rfl

theorem legible_synthesise {regex : Regex} (found : parse text = .ok regex) :
    Automaton.Table.Legible regex.synthesise.result where
  valid := Synthesis.valid_synthesise regex
  symbols symbol declared := by
    rw [Synthesis.alphabet_synthesise] at declared
    exact solid_of_parse found (SortedSet.mem_ofList.mp declared)
  states state declared := by
    rcases exists_number_of_mem_states declared with ⟨number, rfl⟩
    have stem : Automaton.Table.IsStateName Synthesis.stateStem :=
      ⟨by decide, by decide, by decide, by decide⟩
    exact Automaton.Table.isStateName_keptByCounting stem (Name.recounted_numbered _ number)
  listed := by
    refine .inr fun state declared comma => ?_
    rcases exists_number_of_mem_states declared with ⟨number, rfl⟩
    rw [Name.toList_numbered] at comma
    rcases List.mem_append.mp comma with inStem | inDigits
    · exact absurd inStem (by decide)
    · cases Name.isSubscript_of_mem_subscriptDigits inDigits

theorem read_print_synthesise {regex : Regex} (found : parse text = .ok regex)
    (plain : ∀ name, name ∈ regex.names → '#' ∉ name.toList) :
    Automaton.Table.read (Automaton.Table.print regex.synthesise.result ++ "\n") =
      if regex.Barren then .error .missingStart else .ok regex.synthesise.result := by
  have free : ∀ symbol, symbol ∈ regex.synthesise.result.alphabet → '#' ∉ symbol.toList := by
    rw [Synthesis.alphabet_synthesise]
    exact fun symbol declared => plain symbol (SortedSet.mem_ofList.mp declared)
  rw [Automaton.Table.read_append_newline, (legible_synthesise found).read_print_eq free]
  simp only [columnLabels_synthesise]

end Regex

/-! ## From one command to the next -/

section Commands

variable (present : files file = some content)
  (found : Automaton.Table.read content = .ok automaton) (isValid : automaton.isValid = true)
  (states : ∀ state, state ∈ automaton.states → Automaton.Table.IsStateName state)

include present found isValid states

theorem reread_determinised :
    Session.PrintsTable files (.determinise file) (Automaton.Subset.construct automaton).result ∧
      Automaton.Table.read
          (Automaton.Table.print (Automaton.Subset.construct automaton).result ++ "\n") =
        if automaton.alphabet = ∅ then .error .missingStart
        else .ok (Automaton.Subset.construct automaton).result :=
  ⟨Session.printsTable_determinise present found (Automaton.determinise_eq isValid),
    Automaton.Table.read_print_determinised (Automaton.Table.written_of_read found).symbols
      (Automaton.isValid_iff.mp isValid) states⟩

/-- The names of classes are joined from the names of the automaton that is minimised, be it
the one that was read or the determinised one. -/
theorem reread_minimised (undashed : ∀ state, state ∈ automaton.states → state ≠ "-") :
    ∃ minimised,
      (if automaton.isDeterministic then automaton
        else (Automaton.Subset.construct automaton).result).minimise = .ok minimised ∧
      Session.PrintsTable files (.minimise file) minimised.result ∧
      Automaton.Table.read (Automaton.Table.print minimised.result ++ "\n") =
        if automaton.alphabet = ∅ then .error .missingStart else .ok minimised.result := by
  have valid := Automaton.isValid_iff.mp isValid
  have symbols := (Automaton.Table.written_of_read found).symbols
  have whole : ∀ state, state ∈ automaton.states → Automaton.Table.IsWholeName state :=
    fun state declared => ⟨states state declared, undashed state declared⟩
  cases kind : automaton.isDeterministic with
  | true =>
      have classes := Automaton.minimise_eq isValid kind
      exact ⟨_, classes, Session.printsTable_minimise present found classes (.inl ⟨kind, rfl⟩),
        Automaton.Table.read_print_minimised symbols valid (Automaton.deterministic_iff.mp kind)
          whole⟩
  | false =>
      have loud := Automaton.Table.loud_of_words symbols
      have total := Automaton.total_determinised loud
      have alphabet := Automaton.Subset.alphabet_result loud
      have subsets := Automaton.determinise_eq isValid
      have classes := Automaton.minimise_eq (Automaton.isValid_iff.mpr total.valid)
        (Automaton.deterministic_iff.mpr total.deterministic)
      refine ⟨_, classes, Session.printsTable_minimise present found classes
        (.inr ⟨kind, Session.determinise_eq subsets⟩), ?_⟩
      have read := Automaton.Table.read_print_minimised (by rwa [alphabet]) total.valid
        total.deterministic fun _ => Automaton.Subset.holds_of_mem_states_result valid
          Automaton.Table.isWholeName_keptByCounting Automaton.Table.isWholeName_emptySetName
          Automaton.Table.isWholeName_joined whole
      rwa [alphabet] at read

end Commands

/-- The tables that commands print are accepted and give the printed automaton back, unless they
have no columns: then the row of the start state is taken for the header. -/
theorem reread_printed_tables (files : Session.Files) :
    (∀ text regex, Regex.parse text = .ok regex →
      Session.PrintsTable files (.fromRegex text) regex.synthesise.result ∧
      ((∀ name, name ∈ regex.names → '#' ∉ name.toList) →
        Automaton.Table.read (Automaton.Table.print regex.synthesise.result ++ "\n") =
          if regex.Barren then .error .missingStart else .ok regex.synthesise.result) ∧
      ∀ name, name ∈ regex.names → '#' ∈ name.toList →
        Automaton.Table.read (Automaton.Table.print regex.synthesise.result ++ "\n") ≠
          .ok regex.synthesise.result) ∧
    ∀ file content automaton, files file = some content →
      Automaton.Table.read content = .ok automaton → automaton.isValid = true →
      (∀ state, state ∈ automaton.states → Automaton.Table.IsStateName state) →
      ∃ determinised, automaton.determinise = .ok determinised ∧
        Session.PrintsTable files (.determinise file) determinised.result ∧
        Automaton.Table.read (Automaton.Table.print determinised.result ++ "\n") =
          (if automaton.alphabet = ∅ then .error .missingStart else .ok determinised.result) ∧
        ((∀ state, state ∈ automaton.states → state ≠ "-") → ∃ minimised,
          (if automaton.isDeterministic then automaton else determinised.result).minimise =
            .ok minimised ∧
          Session.PrintsTable files (.minimise file) minimised.result ∧
          Automaton.Table.read (Automaton.Table.print minimised.result ++ "\n") =
            if automaton.alphabet = ∅ then .error .missingStart else .ok minimised.result) := by
  refine ⟨fun text regex found => ⟨Session.printsTable_fromRegex found,
    Regex.read_print_synthesise found, fun name named inside => ?_⟩, ?_⟩
  · refine Automaton.Table.read_ne_of_hash ?_ inside _
    rw [Regex.Synthesis.alphabet_synthesise]
    exact SortedSet.mem_ofList.mpr named
  · intro file content automaton present found isValid states
    rcases reread_determinised present found isValid states with ⟨prints, reread⟩
    exact ⟨_, Automaton.determinise_eq isValid, prints, reread,
      reread_minimised present found isValid states⟩

/-- The table of an automaton with a choice in its first state. -/
def branchingTable : String := "     x\n→ a  \x7ba, b\x7d\n* b  ∅"

def branching : Automaton :=
  Automaton.ofRows "a" ["b"] ["x"] [("a", [(.symbol "x", ["a", "b"])]), ("b", [])]

theorem reread_printed_tables_branching :
    (∃ regex, Regex.parse "ab*" = .ok regex ∧
      Session.PrintsTable (fun _ => some branchingTable) (.fromRegex "ab*")
        regex.synthesise.result ∧
      Automaton.Table.read (Automaton.Table.print regex.synthesise.result ++ "\n") =
        .ok regex.synthesise.result) ∧
    Automaton.Table.read branchingTable = .ok branching ∧ branching.isValid = true ∧
    ∃ determinised minimised, branching.determinise = .ok determinised ∧
      determinised.result.minimise = .ok minimised ∧
      Session.PrintsTable (fun _ => some branchingTable) (.determinise "table")
        determinised.result ∧
      Session.PrintsTable (fun _ => some branchingTable) (.minimise "table") minimised.result ∧
      Automaton.Table.read (Automaton.Table.print determinised.result ++ "\n") =
        .ok determinised.result ∧
      Automaton.Table.read (Automaton.Table.print minimised.result ++ "\n") =
        .ok minimised.result := by
  rcases reread_printed_tables fun _ => some branchingTable with ⟨expressions, tables⟩
  have parsed : Regex.parse "ab*" = .ok (.sequence (.symbol "a") (.star (.symbol "b"))) := by
    decide
  rcases expressions "ab*" _ parsed with ⟨prints, reread, _⟩
  have read : Automaton.Table.read branchingTable = .ok branching := by decide
  have valid : branching.isValid = true := by decide
  have plain : ∀ state, state ∈ branching.states.toList → Automaton.Table.IsStateName state ∧
      state ≠ "-" := by
    intro state declared
    have named : state = "a" ∨ state = "b" := by
      revert state
      decide
    rcases named with rfl | rfl <;> exact ⟨⟨by decide, by decide, by decide, by decide⟩, by decide⟩
  rcases tables "table" branchingTable branching rfl read valid fun state declared =>
      (plain state declared).1 with
    ⟨determinised, subsets, printsSubsets, rereadSubsets, merged⟩
  rcases merged fun state declared => (plain state declared).2 with
    ⟨minimised, classes, printsClasses, rereadClasses⟩
  have columns : branching.alphabet ≠ ∅ := by decide
  rw [if_neg (by decide)] at reread classes
  rw [if_neg columns] at rereadSubsets rereadClasses
  exact ⟨⟨_, parsed, prints, reread (by decide)⟩, read, valid, determinised, minimised, subsets,
    classes, printsSubsets, printsClasses, rereadSubsets, rereadClasses⟩

/-- One empty step, and no symbols. -/
def silent : Automaton := Automaton.ofRows "s" ["t"] [] [("s", [(.epsilon, ["t"])]), ("t", [])]

/-- In braces a target may begin with a brace. -/
def bracedTarget : Automaton :=
  Automaton.ofRows "s" ["\x7bq"] ["x"] [("s", [(.symbol "x", ["\x7bq"])]), ("\x7bq", [])]

/-- The names of two equivalent states make up an arrow when they are joined. -/
def arrowParts : Automaton :=
  Automaton.ofRows "s" ["s"] ["x"]
    [("s", [(.symbol "x", ["-"])]), ("-", [(.symbol "x", [">x"])]), (">x", [(.symbol "x", ["-"])])]

/-- What is printed for `∅` and for an automaton without symbols has no columns. The other two
tables are refused or misread for the names of their states. -/
theorem printed_table_refused :
    (Regex.parse "∅" = .ok .empty ∧
      Session.PrintsTable (fun _ => none) (.fromRegex "∅") Regex.empty.synthesise.result ∧
      Automaton.Table.read (Automaton.Table.print Regex.empty.synthesise.result ++ "\n") =
        .error .missingStart) ∧
    (∃ content determinised, Automaton.Table.read content = .ok silent ∧ silent.isValid = true ∧
      silent.determinise = .ok determinised ∧
      Session.PrintsTable (fun _ => some content) (.determinise "table") determinised.result ∧
      Automaton.Table.read (Automaton.Table.print determinised.result ++ "\n") =
        .error .missingStart) ∧
    (∃ content determinised, Automaton.Table.read content = .ok bracedTarget ∧
      bracedTarget.isValid = true ∧ bracedTarget.determinise = .ok determinised ∧
      Session.PrintsTable (fun _ => some content) (.determinise "table") determinised.result ∧
      Automaton.Table.read (Automaton.Table.print determinised.result ++ "\n") =
        .error (.unclosedBrace 2)) ∧
    ∃ content minimised, Automaton.Table.read content = .ok arrowParts ∧
      arrowParts.isValid = true ∧ arrowParts.minimise = .ok minimised ∧
      Session.PrintsTable (fun _ => some content) (.minimise "table") minimised.result ∧
      Automaton.Table.read (Automaton.Table.print minimised.result ++ "\n") ≠
        .ok minimised.result := by
  have parsed : Regex.parse "∅" = .ok .empty := by decide
  have silentRead : Automaton.Table.read "   ε\n→ s  \x7bt\x7d\n* t  ∅" = .ok silent := by decide
  have bracedRead : Automaton.Table.read "     x\n→ s   \x7b\x7bq\x7d\n* \x7bq  ∅" =
      .ok bracedTarget := by decide
  have arrowRead : Automaton.Table.read "     x\n→ * s  -\n- >x\n>x -" = .ok arrowParts := by decide
  have silentSets : silent.determinise = .ok _ := Automaton.determinise_eq (by decide)
  have bracedSets : bracedTarget.determinise = .ok _ := Automaton.determinise_eq (by decide)
  have deterministic : arrowParts.isDeterministic = true := by decide
  have classes : arrowParts.minimise = .ok _ := Automaton.minimise_eq (by decide) deterministic
  refine ⟨⟨parsed, Session.printsTable_fromRegex parsed, by decide⟩,
    ⟨_, _, silentRead, by decide, silentSets,
      Session.printsTable_determinise rfl silentRead silentSets, by decide⟩,
    ⟨_, _, bracedRead, by decide, bracedSets,
      Session.printsTable_determinise rfl bracedRead bracedSets, by decide⟩,
    ⟨_, _, arrowRead, by decide, classes,
      Session.printsTable_minimise rfl arrowRead classes (.inl ⟨deterministic, rfl⟩), by decide⟩⟩

end FormalLanguages
