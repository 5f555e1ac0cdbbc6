import FormalLanguages.Proofs.Grammar.LineFormat.Printing
import FormalLanguages.Proofs.Grammar.NormalForm.Names
import FormalLanguages.Proofs.Name.Spelling

namespace FormalLanguages.Grammar

/-! # Normal forms are printed and read back

The normal form of a grammar that was read can be written down again. It is read back as it
was, with one exception: a head whose alternatives were all units that lead nowhere is left
without any, its line ends after the arrow, and such a line is read as an empty alternative.
Where such a head plays a part, the language grows. -/

variable {grammar : Grammar} {head : String} {word : List String}

/-! ## Names -/

theorem isNonTerminalName_append {text marks : List Char} (name : isNonTerminalName text = true)
    (all : ∀ mark, mark ∈ marks → isMark mark = true) :
    isNonTerminalName (text ++ marks) = true := by
  rcases isNonTerminalName_iff.mp name with ⟨head, own, rfl, capital, earlier⟩
  refine isNonTerminalName_iff.mpr ⟨head, own ++ marks, rfl, capital, fun mark inside => ?_⟩
  exact (List.mem_append.mp inside).elim (earlier mark) (all mark)

theorem isMark_of_isSubscript {mark : Char} (subscript : Name.isSubscript mark = true) :
    isMark mark = true := by simp [isMark, subscript]

theorem isNonTerminalName_countUp {name : String} (taken : List String)
    (isName : isNonTerminalName name.toList = true) :
    isNonTerminalName (Name.countUp name taken).toList = true := by
  rcases Name.exists_recounted name taken with
    ⟨stem, ⟨old, whole, subscripts⟩, ⟨new, _, counted, all⟩⟩
  rw [counted]
  refine isNonTerminalName_append ?_ fun mark inside => isMark_of_isSubscript (all mark inside)
  rcases isNonTerminalName_iff.mp (whole ▸ isName) with ⟨head, marks, text, capital, following⟩
  cases stem with
  | nil =>
      -- The capital would be one of the subscripts.
      have first : head ∈ old := by simp [show old = head :: marks from text]
      have small := (not_uppercase_of_isMark (isMark_of_isSubscript (subscripts head first))).1
      exact absurd capital (Bool.eq_false_iff.mp small)
  | cons letter rest =>
      rcases List.cons.inj text with ⟨rfl, after⟩
      exact isNonTerminalName_iff.mpr ⟨letter, rest, rfl, capital, fun mark inside =>
        following mark (after ▸ List.mem_append_left _ inside)⟩

theorem isNonTerminalName_stem (terminal : String) :
    isNonTerminalName (Lifted.stem terminal).toList = true := by
  rw [Lifted.stem.eq_def]
  split
  case h_1 letter _ =>
    split
    case isTrue lower =>
      have codes : letter.toNat ∈ List.range' 97 26 := by
        rcases Bool.and_eq_true_iff.mp lower with ⟨least, most⟩
        have fromA := UInt32.le_iff_toNat_le.mp (of_decide_eq_true least)
        have toZ := UInt32.le_iff_toNat_le.mp (of_decide_eq_true most)
        exact List.mem_range'_1.mpr ⟨fromA, Nat.lt_succ_of_le toZ⟩
      apply Text.of_code codes
      decide
    case isFalse => rfl
  case h_2 => rfl

theorem isNonTerminalName_freshOrSelf (terminal : String) (taken : List String) :
    isNonTerminalName (Name.freshOrSelf (Lifted.stem terminal) taken).toList = true := by
  have stem := isNonTerminalName_stem terminal
  rcases Name.freshOrSelf_eq_or (Lifted.stem terminal) taken with same | counted
  · rwa [same]
  · rw [counted]
    exact isNonTerminalName_countUp taken stem

/-! ## Reading back -/

/-- A head that has a production without alternatives. -/
def Idle (grammar : Grammar) (head : String) : Prop :=
  head ∈ grammar.productions ∧ grammar.alternatives head = []

def Mentioned (grammar : Grammar) (name : String) : Prop :=
  grammar.start = some name ∨ ∃ head alternative, alternative ∈ grammar.alternatives head ∧
    .nonTerminal name ∈ alternative

theorem respelled_of_isChomsky {start : Option String} {alternative : Alternative}
    (chomsky : isChomskyAlternative start head alternative = true) :
    respelled alternative = alternative := by
  rw [isChomskyAlternative.eq_def] at chomsky
  split at chomsky
  case h_1 | h_2 | h_3 => rfl
  case h_4 => cases chomsky

theorem alternatives_reread_of_isChomsky (chomsky : grammar.isChomsky = true) :
    (¬ grammar.Idle head → grammar.reread.alternatives head = grammar.alternatives head) ∧
      (grammar.Idle head → grammar.reread.alternatives head = [[.empty]]) := by
  have same : (grammar.alternatives head).map respelled = grammar.alternatives head := by
    refine (List.map_congr_left fun alternative member => ?_).trans (List.map_id _)
    rcases mem_alternatives_iff.mp member with ⟨alternatives, found, inside⟩
    have each := List.all_eq_true.mp chomsky _ (DeclaredMap.get?_eq_some_iff.mp found)
    exact respelled_of_isChomsky (List.all_eq_true.mp each alternative inside)
  rw [alternatives_reread]
  constructor
  · intro busy
    split
    case isTrue given =>
      have filled : (grammar.alternatives head).isEmpty = false :=
        List.isEmpty_eq_false_iff.mpr fun none => busy ⟨given, none⟩
      rw [respelledAll, filled, if_neg Bool.false_ne_true, same]
    case isFalse foreign => exact (alternatives_eq_nil foreign).symm
  · rintro ⟨given, none⟩
    rw [if_pos given, none]
    rfl

theorem derives_reread (chomsky : grammar.isChomsky = true)
    (derives : grammar.Derives head word) : grammar.reread.Derives head word :=
  derives.transfer fun name alternative _ member yields => by
    have busy : ¬ grammar.Idle name := fun idle => absurd (idle.2 ▸ member) List.not_mem_nil
    exact ⟨alternative, (alternatives_reread_of_isChomsky chomsky).1 busy ▸ member, yields⟩

/-- Where no idle head is mentioned, derivations never come to one. -/
theorem derives_of_reread (chomsky : grammar.isChomsky = true)
    (unused : ∀ head, grammar.Idle head → ¬ grammar.Mentioned head) (busy : ¬ grammar.Idle head)
    (derives : grammar.reread.Derives head word) : grammar.Derives head word := by
  refine derives.means (fun name word => ¬ grammar.Idle name → grammar.Derives name word)
    (fun name alternative word member spells busy => ?_) busy
  rw [(alternatives_reread_of_isChomsky chomsky).1 busy] at member
  have means := spells.mono fun other inside _ derives =>
    derives fun idle => unused other idle (.inr ⟨name, alternative, member, inside⟩)
  exact ⟨alternative, member, yields_of_spells means⟩

theorem derives_nil_reread (chomsky : grammar.isChomsky = true) (idle : grammar.Idle head) :
    grammar.reread.Derives head [] :=
  ⟨[.empty], by rw [(alternatives_reread_of_isChomsky chomsky).2 idle]; exact List.mem_cons_self,
    .empty .done⟩

theorem accepts_reread (chomsky : grammar.isChomsky = true)
    (started : grammar.reread.start = grammar.start) (accepts : grammar.Accepts word) :
    grammar.reread.Accepts word := by
  rcases accepts with ⟨start, isStart, derives⟩
  exact ⟨start, started.trans isStart, derives_reread chomsky derives⟩

theorem accepts_of_reread (chomsky : grammar.isChomsky = true)
    (started : grammar.reread.start = grammar.start)
    (unused : ∀ head, grammar.Idle head → ¬ grammar.Mentioned head)
    (accepts : grammar.reread.Accepts word) : grammar.Accepts word := by
  rcases accepts with ⟨start, isStart, derives⟩
  have own := started.symm.trans isStart
  exact ⟨start, own, derives_of_reread chomsky unused (fun idle => unused start idle (.inl own))
    derives⟩

section Read

variable (read : grammar.Read)

include read

theorem Read.name_chomsky {name : String} (declared : name ∈ grammar.chomsky.grammar.nonTerminals) :
    isNonTerminalName name.toList = true :=
  read.wellFormed.names_chomsky (fun name => read.legible (.nonTerminal name))
    (fun _ taken => isNonTerminalName_countUp taken) isNonTerminalName_freshOrSelf declared

theorem Read.legibleAt_chomsky (head : String) : grammar.chomsky.grammar.LegibleAt head := by
  intro alternative member token inside
  have declared := read.wellFormed.chomsky.token_declared member inside
  cases token with
  | nonTerminal name => exact read.name_chomsky declared
  | terminal name =>
      rw [Declares, read.wellFormed.terminals_chomsky] at declared
      exact read.legible (.terminal name) declared
  | empty => trivial

theorem Read.parse_print_chomsky :
    parse grammar.chomsky.grammar.print = .ok grammar.chomsky.grammar.reread :=
  parse_print (fun head inside => read.name_chomsky (read.wellFormed.chomsky.heads head inside))
    read.legibleAt_chomsky

theorem Read.start_reread_chomsky :
    grammar.chomsky.grammar.reread.start = grammar.chomsky.grammar.start := by
  rcases read.started with rfl | ⟨start, isStart, given⟩
  · decide
  · have inside := read.wellFormed.start_mem_productions_chomsky isStart given
    have same := read.wellFormed.start_chomsky.trans isStart
    rw [same, start_reread same inside]

end Read

/-- The printed normal form of a grammar that was read is read back, with the same start symbol
and the same alternatives of each head, except that heads without alternatives get an empty
one. Nothing is lost from the language, and nothing is added if no such head is mentioned;
where the start symbol is one, the empty sequence is added to the empty language. -/
theorem reread_printed_chomsky {text : String} {grammar : Grammar}
    (read : parse text = .ok grammar) : ∃ back,
      parse grammar.chomsky.grammar.print = .ok back ∧
      back.start = grammar.start ∧
      (∀ head, (¬ grammar.chomsky.grammar.Idle head →
          back.alternatives head = grammar.chomsky.grammar.alternatives head) ∧
        (grammar.chomsky.grammar.Idle head → back.alternatives head = [[.empty]])) ∧
      (∀ word, grammar.Accepts word → back.Accepts word) ∧
      ((∀ head, grammar.chomsky.grammar.Idle head → ¬ grammar.chomsky.grammar.Mentioned head) →
        ∀ word, back.Accepts word ↔ grammar.Accepts word) ∧
      ∀ start, grammar.start = some start → grammar.chomsky.grammar.Idle start →
        back.Accepts [] ∧ ∀ word, ¬ grammar.Accepts word := by
  have read := read_of_parse read
  have chomsky := read.wellFormed.isChomsky_chomsky
  have started := read.start_reread_chomsky
  have same := read.wellFormed.start_chomsky
  refine ⟨_, read.parse_print_chomsky, started.trans same,
    fun head => alternatives_reread_of_isChomsky chomsky, fun word accepts => ?_,
    fun unused word => ⟨fun accepts => ?_, fun accepts => ?_⟩, fun start isStart idle => ⟨?_, ?_⟩⟩
  · exact accepts_reread chomsky started (read.wellFormed.accepts_chomsky_iff.mpr accepts)
  · exact read.wellFormed.accepts_chomsky_iff.mp (accepts_of_reread chomsky started unused accepts)
  · exact accepts_reread chomsky started (read.wellFormed.accepts_chomsky_iff.mpr accepts)
  · exact ⟨start, (started.trans same).trans isStart, derives_nil_reread chomsky idle⟩
  · intro word accepts
    rcases read.wellFormed.accepts_chomsky_iff.mpr accepts with ⟨other, isOther, derives⟩
    rcases derives with ⟨alternative, member, _⟩
    cases Option.some.inj ((same.symm.trans isOther).symm.trans isStart)
    exact absurd (idle.2 ▸ member) List.not_mem_nil

/-- The grammar `S → ab | A`, `A → A`. Its `A` is left without alternatives. -/
def circling : Grammar where
  nonTerminals := DeclaredSet.ofList ["S", "A"]
  terminals := DeclaredSet.ofList ["a", "b"]
  productions := DeclaredMap.ofList
    [("S", [[.terminal "a", .terminal "b"], [.nonTerminal "A"]]), ("A", [[.nonTerminal "A"]])]
  start := some "S"

theorem reread_printed_chomsky_circling :
    parse "S→ab|A\nA→A" = .ok circling ∧ circling.chomsky.grammar.Idle "A" ∧
      ∃ back, parse circling.chomsky.grammar.print = .ok back ∧
        back.start = circling.start ∧ back.alternatives "A" = [[.empty]] ∧
        ∀ word, circling.Accepts word → back.Accepts word :=
  have read : parse "S→ab|A\nA→A" = .ok circling := by decide
  have idle : circling.chomsky.grammar.Idle "A" := ⟨by decide, by decide⟩
  have ⟨back, reads, started, alternatives, keeps, _⟩ := reread_printed_chomsky read
  ⟨read, idle, back, reads, started, (alternatives "A").2 idle, keeps⟩

/-- The grammar `S → S`. -/
def selfReferring : Grammar where
  nonTerminals := DeclaredSet.ofList ["S"]
  terminals := ∅
  productions := DeclaredMap.ofList [("S", [[.nonTerminal "S"]])]
  start := some "S"

theorem not_accepts_selfReferring (word : List String) : ¬ selfReferring.Accepts word := by
  rintro ⟨start, _, derives⟩
  refine derives.means (fun _ _ => False) fun name alternative word member spells => ?_
  rcases mem_alternatives_iff.mp member with ⟨alternatives, found, inside⟩
  have listed := DeclaredMap.get?_eq_some_iff.mp found
  have only : ∀ production, production ∈ selfReferring.productions.entries →
      production.2 = [[.nonTerminal "S"]] := by decide
  have same : alternatives = [[.nonTerminal "S"]] := only _ listed
  rw [same, List.mem_singleton] at inside
  cases inside
  rcases spells with ⟨_, _, _, means, _⟩
  exact means

/-- The grammar `S → ε`. -/
def silent : Grammar where
  nonTerminals := DeclaredSet.ofList ["S"]
  terminals := ∅
  productions := DeclaredMap.ofList [("S", [[.empty]])]
  start := some "S"

/-- `S → S` derives nothing. The line of its normal form is `S→`, and derives the empty
sequence once it is read back. -/
theorem printed_chomsky_grows :
    parse "S→S" = .ok selfReferring ∧ selfReferring.chomsky.grammar.print = "S→\n" ∧
      ∃ back, parse "S→\n" = .ok back ∧ back.Accepts [] ∧ ¬ selfReferring.Accepts [] := by
  refine ⟨by decide, by decide, silent, by decide, ⟨"S", rfl, [.empty], by decide, .empty .done⟩,
    not_accepts_selfReferring []⟩

end FormalLanguages.Grammar
