import FormalLanguages.Proofs.Automaton.Table.Reading
import FormalLanguages.Proofs.Regex.Extraction
import FormalLanguages.Proofs.Regex.Matching
import FormalLanguages.Proofs.Regex.Rereading

namespace FormalLanguages

/-! # The printed expression of an automaton

The expression that an automaton is turned into is made of symbols of its alphabet. Printed
and read back, it matches the texts of the accepted words, as long as its symbols can be told
apart: they hold no character that expressions are put together with, and behind a star
stands a single character. -/

namespace Regex

variable {regex body left right : Regex} {automaton : Automaton} {graph : Graph}

/-! ## Symbols of the alphabet -/

def Over (alphabet : SortedSet String) (regex : Regex) : Prop :=
  ∀ atom, atom ∈ regex.atoms → ∃ name, name ∈ alphabet ∧ atom = symbol name

namespace Over

variable {alphabet : SortedSet String}

theorem nil : Over alphabet nil := fun _ none => absurd none List.not_mem_nil

theorem symbol {name : String} (declared : name ∈ alphabet) : Over alphabet (symbol name) :=
  fun _ only => ⟨name, declared, List.mem_singleton.mp only⟩

theorem sequence (first : Over alphabet left) (second : Over alphabet right) :
    Over alphabet (sequence left right) := fun atom member =>
  (List.mem_append.mp member).elim (first atom) (second atom)

theorem alternative (first : Over alphabet left) (second : Over alphabet right) :
    Over alphabet (alternative left right) := fun atom member =>
  (List.mem_append.mp member).elim (first atom) (second atom)

theorem star (isOver : Over alphabet body) : Over alphabet (star body) := isOver

theorem simplify (isOver : Over alphabet regex) : Over alphabet regex.simplify :=
  fun atom member => isOver atom (atoms_simplify regex member)

end Over

namespace Elimination

def AllOver (alphabet : SortedSet String) (graph : Graph) : Prop :=
  ∀ link regex, graph.edges.get? link = some regex → Over alphabet regex

variable {alphabet : SortedSet String}

theorem AllOver.add (all : AllOver alphabet graph) {source target : String}
    (new : Over alphabet regex) : AllOver alphabet (graph.add source target regex) := by
  have merges : ∀ (_ : Link) (before after : Regex), Over alphabet before → Over alphabet after →
      Over alphabet (Regex.alternative before after).simplify :=
    fun _ _ _ first second => (first.alternative second).simplify
  exact Graph.forall_edges_add merges all new

theorem AllOver.loopOf (all : AllOver alphabet graph) (state : String) :
    Over alphabet (graph.loopOf state) := by
  rw [Graph.loopOf]
  cases edge : graph.edges.get? ⟨state, state⟩ with
  | none => exact .nil
  | some regex => exact (all _ _ edge).star

theorem AllOver.remove (all : AllOver alphabet graph) (state : String) :
    AllOver alphabet (graph.remove state) := by
  rw [Graph.remove_eq]
  refine List.foldlRecOn (motive := AllOver alphabet) _ _ ?_ ?_
  · exact fun link regex edge => all link regex (Graph.get?_without.mp edge).1
  · rintro built before ⟨source, target, regex⟩ member
    rcases Graph.mem_detours.mp member with ⟨first, last, into, _, out, _, rfl⟩
    exact before.add
      (((all _ _ into).sequence ((all.loopOf state).sequence (all _ _ out))).simplify)

theorem allOver_initial (valid : automaton.Valid) :
    AllOver automaton.alphabet (initial automaton) := by
  have rows : AllOver automaton.alphabet (edgeGraph automaton) := by
    refine List.foldlRecOn (motive := AllOver automaton.alphabet) _ _
      (fun _ _ none => nomatch none) ?_
    rintro built before ⟨state, row⟩ listed
    refine List.foldlRecOn (motive := AllOver automaton.alphabet) _ _ before ?_
    rintro grown all ⟨label, target⟩ member
    have edge := Automaton.edges_of_get? (SortedMap.get?_eq_some_iff.mpr listed) ▸ member
    refine all.add ?_
    cases label with
    | epsilon => exact .nil
    | symbol name => exact .symbol (valid.symbols state name target edge)
  rw [initial_eq]
  refine List.foldlRecOn (motive := AllOver automaton.alphabet) _ _ (rows.add .nil) ?_
  exact fun built all state member => all.add .nil

theorem over_of_eliminate (valid : automaton.Valid)
    (found : (eliminate automaton).result = some regex) : Over automaton.alphabet regex := by
  have keeps : ∀ (graph : Graph) (remaining : List String) (state : String),
      AllOver automaton.alphabet graph → state ∈ remaining →
      AllOver automaton.alphabet (graph.remove state) := fun _ _ state before _ =>
    before.remove state
  have all := final_removals keeps (allOver_initial valid)
    (Nat.le_refl automaton.states.toList.length)
  have result := found
  rw [eliminate, (remains_final valid).regexOf?_eq] at result
  rcases Option.map_eq_some_iff.mp result with ⟨edge, listed, rfl⟩
  exact (all _ _ listed).simplify

end Elimination

/-! ## Names that can be told apart -/

theorem mem_names_iff {name : String} :
    name ∈ regex.names ↔ symbol name ∈ regex.atoms ∨ reference name ∈ regex.atoms := by
  induction regex with
  | empty | nil => simp [names]
  | symbol other | reference other => simp [names]
  | sequence first second inFirst inSecond =>
      simp only [names, atoms, List.mem_append, inFirst, inSecond]
      exact or_or_or_comm
  | alternative left right inLeft inRight =>
      simp only [names, atoms, List.mem_append, inLeft, inRight]
      exact or_or_or_comm
  | star body inBody => exact inBody

theorem Over.mem_alphabet {alphabet : SortedSet String} (isOver : Over alphabet regex)
    {name : String}
    (named : name ∈ regex.names) : name ∈ alphabet := by
  rcases mem_names_iff.mp named with member | member
  · rcases isOver _ member with ⟨other, declared, same⟩
    cases same
    exact declared
  · rcases isOver _ member with ⟨_, _, same⟩
    cases same

theorem legible_of_atoms (each : ∀ atom, atom ∈ regex.atoms → atom.Legible) : regex.Legible := by
  induction regex with
  | empty | nil => trivial
  | symbol name | reference name => exact each _ List.mem_cons_self
  | sequence first second inFirst inSecond =>
      exact ⟨inFirst fun atom member => each atom (List.mem_append_left _ member),
        inSecond fun atom member => each atom (List.mem_append_right _ member)⟩
  | alternative left right inLeft inRight =>
      exact ⟨inLeft fun atom member => each atom (List.mem_append_left _ member),
        inRight fun atom member => each atom (List.mem_append_right _ member)⟩
  | star body inBody => exact inBody each

theorem starsWhole_of_single (single : ∀ name, name ∈ regex.names → name.length = 1) :
    regex.StarsWhole := by
  induction regex with
  | empty | nil | symbol _ | reference _ => trivial
  | sequence first second inFirst inSecond =>
      exact ⟨inFirst fun name member => single name (List.mem_append_left _ member),
        inSecond fun name member => single name (List.mem_append_right _ member)⟩
  | alternative left right inLeft inRight =>
      exact ⟨inLeft fun name member => single name (List.mem_append_left _ member),
        inRight fun name member => single name (List.mem_append_right _ member)⟩
  | star body inBody =>
      exact ⟨fun name same => single name (same ▸ List.mem_cons_self), inBody single⟩

/-- None of the characters of the name means anything else in an expression. -/
def PlainName (name : String) : Prop :=
  ∀ character, character ∈ name.toList →
    Reading.isReserved character = false ∧ Name.isSubscript character = false

theorem Over.legible {alphabet : SortedSet String} (isOver : Over alphabet regex)
    (words : ∀ name, name ∈ alphabet → Automaton.Table.IsWord name)
    (plain : ∀ name, name ∈ regex.names → PlainName name) : regex.Legible := by
  refine legible_of_atoms fun atom member => ?_
  rcases isOver atom member with ⟨name, declared, rfl⟩
  have own := plain name (mem_names_iff.mpr (.inl member))
  have word := words name declared
  exact ⟨word.filled, fun character inside => ⟨(word.solid character inside).1,
    (own character inside).1, (own character inside).2⟩⟩

theorem StarsWhole.test_readBack_iff (whole : regex.StarsWhole) (closed : regex.references = [])
    {input : String} : (catAll regex.readBack).test input = true ↔
      ∃ word, regex.MatchesSymbols word ∧ input.toList = spelled word := by
  rw [test_iff, whole.matchesText_readBack]
  constructor
  · exact exists_spelled
  · rintro ⟨word, holds, same⟩
    exact same ▸ matchesText_spelled holds closed

/-! ## The extracted expression -/

/-- The expression that is printed: nothing is accepted where none is found. -/
def extracted (automaton : Automaton) : Regex :=
  (Elimination.eliminate automaton).result.getD .empty

section Extracted

variable (valid : automaton.Valid)

include valid

theorem over_extracted : Over automaton.alphabet (extracted automaton) := by
  rw [extracted]
  cases found : (Elimination.eliminate automaton).result with
  | none => exact fun _ none => absurd none List.not_mem_nil
  | some regex => exact Elimination.over_of_eliminate valid found

theorem references_extracted : (extracted automaton).references = [] := by
  refine references_eq_nil_iff.mpr fun name member => ?_
  rcases over_extracted valid _ member with ⟨_, _, same⟩
  cases same

theorem matches_extracted_iff {word : List String} :
    (extracted automaton).MatchesSymbols word ↔ automaton.Accepts word := by
  have remains := Elimination.remains_final valid
  rw [extracted]
  cases found : (Elimination.eliminate automaton).result with
  | none =>
      exact iff_of_false (matches_empty_iff.mp) (remains.regexOf?_eq_none_iff.mp found word)
  | some regex => exact (remains.of_regexOf?_eq_some found).2 word

end Extracted

end Regex

open Regex

/-- The printed expression of a table is made of symbols of the table. If none of their
characters means anything else in an expression, it is read back, and it matches the texts of
the accepted words if no symbol of several characters stands right before a star. Where all
symbols are single characters, none does. -/
theorem reread_printed_extraction {text : String} {automaton : Automaton}
    (read : Automaton.Table.read text = .ok automaton) (valid : automaton.isValid = true) :
    ∃ observed printed, automaton.toRegex = .ok observed ∧
      printed = observed.result.getD .empty ∧
      (∀ name, name ∈ printed.names → name ∈ automaton.alphabet) ∧
      ((∀ name, name ∈ automaton.alphabet → name.length = 1) → printed.StarsWhole) ∧
      ((∀ name, name ∈ printed.names → PlainName name) →
        ∃ parsed, Regex.parse printed.print = .ok parsed ∧
          (printed.StarsWhole → ∀ input, parsed.test input = true ↔
            ∃ word, automaton.accepts word = true ∧ input.toList = spelled word)) := by
  have isValid := Automaton.isValid_iff.mp valid
  have isOver := over_extracted isValid
  refine ⟨Elimination.eliminate automaton, extracted automaton, ?_, rfl,
    fun _ => isOver.mem_alphabet, fun single => ?_, fun plain => ?_⟩
  · simp only [Automaton.toRegex, Automaton.requireValid, valid, if_true]
    rfl
  · exact starsWhole_of_single fun name named => single name (isOver.mem_alphabet named)
  · have words := fun name declared =>
      ((Automaton.Table.written_of_read read).symbols name declared).1
    refine ⟨_, (isOver.legible words plain).parse_print, fun whole input => ?_⟩
    rw [whole.test_readBack_iff (references_extracted isValid)]
    simp only [matches_extracted_iff isValid, Automaton.accepts_iff]

/-- The automaton that goes back and forth, with a loop at its accepting state. -/
def alternating : Automaton :=
  Automaton.ofRows "s" ["t"] ["a", "b"]
    [("s", [(.symbol "a", ["t"])]), ("t", [(.symbol "b", ["s"]), (.symbol "a", ["t"])])]

theorem reread_printed_extraction_alternating :
    Automaton.Table.read "     a  b\n→ s  t  ∅\n* t  t  s" = .ok alternating ∧
      alternating.isValid = true ∧
      ∃ observed printed parsed, alternating.toRegex = .ok observed ∧
        printed = observed.result.getD .empty ∧ Regex.parse printed.print = .ok parsed ∧
        ∀ input, parsed.test input = true ↔
          ∃ word, alternating.accepts word = true ∧ input.toList = spelled word := by
  have read : Automaton.Table.read "     a  b\n→ s  t  ∅\n* t  t  s" = .ok alternating := by decide
  have valid : alternating.isValid = true := by decide
  have single : ∀ name, name ∈ alternating.alphabet.toList → name.length = 1 ∧
      ∀ character, character ∈ name.toList →
        Reading.isReserved character = false ∧ Name.isSubscript character = false := by decide
  rcases reread_printed_extraction read valid with
    ⟨observed, printed, extracts, isPrinted, declared, whole, reread⟩
  rcases reread fun name named => (single name (declared name named)).2 with ⟨parsed, reads, same⟩
  exact ⟨read, valid, observed, printed, parsed, extracts, isPrinted, reads,
    same (whole fun name declared => (single name declared).1)⟩

/-- A loop with a symbol of two characters. -/
def starredPair : Automaton := Automaton.ofRows "s" ["s"] ["ab"] [("s", [(.symbol "ab", ["s"])])]

/-- An automaton that accepts one symbol. -/
def oneStep (symbol : String) : Automaton :=
  Automaton.ofRows "s" ["t"] [symbol] [("s", [(.symbol symbol, ["t"])]), ("t", [])]

/-- A star behind `ab` is read as a star of `b`. The symbol `+` is read as an alternative
without operands, and the symbol `a₁` as a reference, which matches nothing. -/
theorem printed_extraction_misread :
    (Automaton.Table.read "     ab\n→ * s  s" = .ok starredPair ∧ starredPair.isValid = true ∧
      (starredPair.toRegex.map fun observed => (observed.result.getD .empty).print) = .ok "ab*" ∧
      (∃ parsed, Regex.parse "ab*" = .ok parsed ∧ parsed.test "a" = true) ∧
      ¬ ∃ word, starredPair.accepts word = true ∧ "a".toList = spelled word) ∧
    (Automaton.Table.read "     +\n→ s  t\n* t  ∅" = .ok (oneStep "+") ∧
      (oneStep "+").isValid = true ∧
      ((oneStep "+").toRegex.map fun observed => (observed.result.getD .empty).print) = .ok "+" ∧
      Regex.parse "+" = .error (.missingOperand 0)) ∧
    (Automaton.Table.read "     a₁\n→ s  t\n* t  ∅" = .ok (oneStep "a₁") ∧
      (oneStep "a₁").isValid = true ∧ (oneStep "a₁").accepts ["a₁"] = true ∧
      ((oneStep "a₁").toRegex.map fun observed => (observed.result.getD .empty).print) =
        .ok "a₁" ∧
      ∃ parsed, Regex.parse "a₁" = .ok parsed ∧ parsed.test "a₁" = false) := by
  refine ⟨⟨by decide, by decide, by decide,
      ⟨sequence (symbol "a") (star (symbol "b")), by decide, by decide⟩, ?_⟩,
    ⟨by decide, by decide, by decide, by decide⟩,
    ⟨by decide, by decide, by decide, by decide, reference "a₁", by decide, by decide⟩⟩
  rintro ⟨word, accepts, spells⟩
  cases word with
  | nil => cases spells
  | cons letter rest =>
      rcases Automaton.accepts_iff.mp accepts with ⟨target, _, path⟩
      have valid : starredPair.Valid := Automaton.isValid_iff.mp (by decide)
      have declared := valid.symbols_of_path path List.mem_cons_self
      have only : ∀ name, name ∈ starredPair.alphabet.toList → name = "ab" := by decide
      rw [only letter declared] at spells
      cases spells

end FormalLanguages
