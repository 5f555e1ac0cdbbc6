import FormalLanguages.Grammar.NormalForm.Chomsky
import FormalLanguages.Proofs.Grammar.NormalForm.Binary
import FormalLanguages.Proofs.Grammar.NormalForm.EmptyFree
import FormalLanguages.Proofs.Grammar.NormalForm.Lifted
import FormalLanguages.Proofs.Grammar.NormalForm.UnitFree

namespace FormalLanguages.Grammar

/-! # Chomsky normal form keeps the language

The passes follow one another, and each one keeps what a non-terminal derives. The
empty sequence is left to the start symbol, and no later pass spreads it. -/

variable {grammar : Grammar}

namespace Chomsky

/-! The grammar after splitting, after removing `ε` and after inlining. -/

def split (grammar : Grammar) : Grammar := grammar.binary.grammar

def solid (grammar : Grammar) : Grammar := (split grammar).emptyFree.grammar

def inlined (grammar : Grammar) : Grammar := ((solid grammar).inlineUnits false).grammar

theorem grammar_chomsky : grammar.chomsky.grammar = (inlined grammar).lifted.grammar := by
  simp only [chomsky, Progress.continue, inlined, solid, split]

section WellFormed

variable (wellFormed : grammar.WellFormed)

include wellFormed

theorem wellFormed_split : (split grammar).WellFormed := wellFormed.binary

theorem wellFormed_solid : (solid grammar).WellFormed := (wellFormed_split wellFormed).emptyFree

theorem wellFormed_inlined : (inlined grammar).WellFormed :=
  (wellFormed_solid wellFormed).inlineUnits

theorem start_inlined : (inlined grammar).start = grammar.start := by
  rw [inlined, UnitFree.rewritten_inlineUnits.start, solid, EmptyFree.start_result]
  exact wellFormed.visited_binary.grows.start

theorem terminals_inlined : (inlined grammar).terminals = grammar.terminals := by
  rw [inlined, UnitFree.rewritten_inlineUnits.terminals, solid, EmptyFree.terminals_result]
  exact wellFormed.visited_binary.grows.terminals

theorem mem_inlined {name : String} (declared : name ∈ grammar.nonTerminals)
    (stays : grammar.start = some name ∨ ¬ name ∈ grammar.nullNonTerminals) :
    name ∈ (inlined grammar).nonTerminals := by
  have grows := wellFormed.visited_binary.grows
  rw [inlined, UnitFree.rewritten_inlineUnits.nonTerminals, solid,
    EmptyFree.mem_nonTerminals_result]
  refine ⟨grows.nonTerminals name declared, fun dropped => ?_⟩
  rcases stays with isStart | filled
  · exact dropped.2 (grows.start.trans isStart)
  · exact filled (wellFormed.mem_null_of_binary declared dropped.1)

/-! ## The shape of the result -/

theorem alternative_inlined {head : String} {alternative : Alternative}
    (member : alternative ∈ (inlined grammar).alternatives head) :
    alternative = EmptyFree.emptyAlternative ∧ grammar.start = some head ∨
      alternative ≠ [] ∧ .empty ∉ alternative ∧ alternative.length ≤ 2 ∧
        ∀ name, alternative ≠ [.nonTerminal name] := by
  rcases UnitFree.mem_alternatives_result.mp member with ⟨source, leads, inside, borrowed⟩
  rcases UnitFree.isBorrowed_iff.mp borrowed with ⟨notUnit, own | same | filled⟩
  · cases own
  · rcases (wellFormed_split wellFormed).alternative_emptyFree inside with
      ⟨empty, isStart⟩ | ⟨filled, solid, original, belongs, part⟩
    · exact .inl ⟨empty, wellFormed.visited_binary.grows.start ▸ same ▸ isStart⟩
    · exact .inr ⟨filled, fun empty => Bool.noConfusion (solid _ empty),
        Nat.le_trans part.length_le (wellFormed.length_alternative_binary belongs), notUnit⟩
  · rcases (wellFormed_split wellFormed).alternative_emptyFree inside with
      ⟨empty, _⟩ | ⟨filled, solid, original, belongs, part⟩
    · exact absurd empty filled
    · exact .inr ⟨filled, fun empty => Bool.noConfusion (solid _ empty),
        Nat.le_trans part.length_le (wellFormed.length_alternative_binary belongs), notUnit⟩

omit wellFormed in
theorem isChomskyAlternative_of_lifts {given : Grammar} {start : Option String} {head : String}
    {original part : List Token} (lifts : Lifted.Lifts given grammar original part)
    (solid : .empty ∉ original) (two : original.length = 2) :
    isChomskyAlternative start head part = true := by
  rcases List.length_eq_two.mp (lifts.length_eq.trans two) with ⟨first, second, rfl⟩
  have onlyNames : ∀ token, token ∈ [first, second] → ∃ name, token = .nonTerminal name := by
    intro token inside
    cases token with
    | nonTerminal name => exact ⟨name, rfl⟩
    | terminal name => exact absurd inside (lifts.not_terminal name)
    | empty => exact absurd (lifts.empty_mem inside) solid
  rcases onlyNames first (by simp) with ⟨left, rfl⟩
  rcases onlyNames second (by simp) with ⟨right, rfl⟩
  rfl

theorem isChomskyAlternative_result {head : String} {alternative : Alternative}
    (member : alternative ∈ grammar.chomsky.grammar.alternatives head) :
    isChomskyAlternative grammar.start head alternative = true := by
  rw [grammar_chomsky] at member
  have inlinedFormed := wellFormed_inlined wellFormed
  rcases inlinedFormed.stands_lifted (inlinedFormed.lifted.head_declared member) with
    old | ⟨terminal, stands⟩
  · rcases exists_item (inlinedFormed.represents_lifted old) member with
      ⟨original, inside, represents⟩
    rcases alternative_inlined wellFormed inside with ⟨rfl, isStart⟩ | ⟨filled, solid, few, notUnit⟩
    · cases represents with
      | short => simp [EmptyFree.emptyAlternative, isChomskyAlternative, isStart]
      | long enough => exact absurd enough (by decide)
    · cases represents with
      | short bounded =>
          match alternative with
          | [] => exact absurd rfl filled
          | [.terminal _] => rfl
          | [.nonTerminal name] => exact absurd rfl (notUnit name)
          | [.empty] => exact absurd List.mem_cons_self solid
          | _ :: _ :: _ => exact absurd bounded (by simp)
      | long enough lifts =>
          exact isChomskyAlternative_of_lifts lifts solid (Nat.le_antisymm few enough)
  · rw [stands.only, List.mem_singleton] at member
    rw [member]
    rfl

/-! ## What names derive -/

theorem derives_of_result {name : String} {word : List String}
    (declared : name ∈ grammar.nonTerminals) (stays : name ∈ (inlined grammar).nonTerminals)
    (derives : grammar.chomsky.grammar.Derives name word) : grammar.Derives name word := by
  rw [grammar_chomsky] at derives
  have inInlined := (wellFormed_inlined wellFormed).derives_of_lifted stays derives
  have inSolid := derives_of_inlineUnits inInlined
  have inSplit := (wellFormed_split wellFormed).derives_of_emptyFree inSolid
  exact wellFormed.derives_of_binary declared inSplit

/-- What the grammar derived once it was split is derived without empty parts. -/
theorem forms_of_split {name : String} {word : List String}
    (derives : (split grammar).Derives name word) (nonempty : word ≠ []) :
    grammar.chomsky.grammar.Forms name word := by
  have inSolid := (wellFormed_split wellFormed).forms_emptyFree derives nonempty
  have inInlined : (inlined grammar).Forms name word := inSolid.inlineUnits
  rw [grammar_chomsky]
  exact (wellFormed_inlined wellFormed).forms_lifted inInlined

theorem forms_result {name : String} {word : List String} (derives : grammar.Derives name word)
    (nonempty : word ≠ []) : grammar.chomsky.grammar.Forms name word :=
  forms_of_split wellFormed (wellFormed.derives_binary derives) nonempty

theorem derives_nil_result {start : String} (isStart : grammar.start = some start)
    (derives : grammar.Derives start []) : grammar.chomsky.grammar.Derives start [] := by
  have sameStart := wellFormed.visited_binary.grows.start.trans isStart
  have inSolid := (wellFormed_split wellFormed).derives_nil_emptyFree sameStart
    (wellFormed.derives_binary derives)
  have inInlined : EmptyFree.emptyAlternative ∈ (inlined grammar).alternatives start :=
    UnitFree.mem_of_not_unit inSolid fun _ => by simp [EmptyFree.emptyAlternative]
  rw [grammar_chomsky]
  exact (wellFormed_inlined wellFormed).derives_lifted ⟨_, inInlined, .empty .done⟩

/-- Nothing in a derivation of a sequence that is not empty has to be empty. -/
theorem derives_iff_forms {name : String} {word : List String} (nonempty : word ≠ []) :
    grammar.chomsky.grammar.Derives name word ↔ grammar.chomsky.grammar.Forms name word := by
  refine ⟨fun derives => ?_, Forms.derives⟩
  have inlinedFormed := wellFormed_inlined wellFormed
  rw [grammar_chomsky] at derives ⊢
  rcases derives with ⟨alternative, member, yields⟩
  rcases inlinedFormed.stands_lifted (inlinedFormed.lifted.head_declared member) with
    stays | ⟨terminal, stands⟩
  · have inInlined := inlinedFormed.derives_of_lifted stays ⟨alternative, member, yields⟩
    have inSolid := derives_of_inlineUnits inInlined
    rw [← grammar_chomsky]
    exact forms_of_split wellFormed
      ((wellFormed_split wellFormed).derives_of_emptyFree inSolid) nonempty
  · rw [stands.only, List.mem_singleton] at member
    subst member
    cases yields with
    | terminal _ tail =>
        cases tail
        exact stands.forms

end WellFormed

end Chomsky

open Chomsky

section Result

variable (wellFormed : grammar.WellFormed)

include wellFormed

theorem WellFormed.start_chomsky : grammar.chomsky.grammar.start = grammar.start := by
  rw [grammar_chomsky, (wellFormed_inlined wellFormed).extends_lifted.start,
    start_inlined wellFormed]

theorem WellFormed.terminals_chomsky : grammar.chomsky.grammar.terminals = grammar.terminals := by
  rw [grammar_chomsky, (wellFormed_inlined wellFormed).extends_lifted.terminals,
    terminals_inlined wellFormed]

theorem WellFormed.isChomsky_chomsky : grammar.chomsky.grammar.isChomsky = true := by
  rw [isChomsky, List.all_eq_true]
  intro production inside
  rw [List.all_eq_true, wellFormed.start_chomsky]
  intro alternative member
  apply isChomskyAlternative_result wellFormed
  exact mem_alternatives_iff.mpr ⟨_, DeclaredMap.get?_eq_some_iff.mpr inside, member⟩

theorem WellFormed.derives_chomsky_iff {name : String} (declared : name ∈ grammar.nonTerminals)
    (stays : grammar.start = some name ∨ ¬ name ∈ grammar.nullNonTerminals)
    {word : List String} (nonempty : word ≠ []) :
    grammar.chomsky.grammar.Derives name word ↔ grammar.Derives name word :=
  ⟨derives_of_result wellFormed declared (mem_inlined wellFormed declared stays),
    fun derives => (forms_result wellFormed derives nonempty).derives⟩

theorem WellFormed.derives_nil_chomsky_iff {start : String}
    (isStart : grammar.start = some start) :
    grammar.chomsky.grammar.Derives start [] ↔ grammar.Derives start [] := by
  have declared := wellFormed.start start isStart
  exact ⟨derives_of_result wellFormed declared (mem_inlined wellFormed declared (.inl isStart)),
    derives_nil_result wellFormed isStart⟩

theorem WellFormed.chomsky : grammar.chomsky.grammar.WellFormed := by
  rw [grammar_chomsky]
  exact (wellFormed_inlined wellFormed).lifted

theorem WellFormed.accepts_chomsky_iff {word : List String} :
    grammar.chomsky.grammar.Accepts word ↔ grammar.Accepts word := by
  refine accepts_iff_of_start wellFormed.start_chomsky (fun start isStart word => ?_) word
  by_cases nonempty : word = []
  · rw [nonempty]
    exact wellFormed.derives_nil_chomsky_iff isStart
  · exact wellFormed.derives_chomsky_iff (wellFormed.start start isStart) (.inl isStart) nonempty

end Result

/-- The Chomsky normal form keeps the start symbol, the terminals, and what is derived by
each non-terminal that is not removed. -/
theorem chomsky_preserves_language (grammar : Grammar) (wellFormed : grammar.WellFormed) :
    grammar.chomsky.grammar.isChomsky = true ∧
      grammar.chomsky.grammar.start = grammar.start ∧
      grammar.chomsky.grammar.terminals = grammar.terminals ∧
      (∀ name, name ∈ grammar.nonTerminals →
        grammar.start = some name ∨ ¬ name ∈ grammar.nullNonTerminals →
        ∀ word, word ≠ [] →
          (grammar.chomsky.grammar.Derives name word ↔ grammar.Derives name word)) ∧
      ∀ start, grammar.start = some start →
        (grammar.chomsky.grammar.Derives start [] ↔ grammar.Derives start []) :=
  ⟨wellFormed.isChomsky_chomsky, wellFormed.start_chomsky, wellFormed.terminals_chomsky,
    fun _ declared stays _ nonempty => wellFormed.derives_chomsky_iff declared stays nonempty,
    fun _ isStart => wellFormed.derives_nil_chomsky_iff isStart⟩

/-- A nullable start symbol inside its own alternatives, a cycle of units that passes
through it, an alternative without tokens and a non-terminal that is only empty. -/
def tangled : Grammar where
  nonTerminals := DeclaredSet.ofList ["S", "A", "N"]
  terminals := DeclaredSet.ofList ["a", "b"]
  productions := DeclaredMap.ofList
    [("S", [[.nonTerminal "A"], [.terminal "a", .nonTerminal "S", .terminal "b"], [.empty]]),
      ("A", [[.nonTerminal "S"], [.nonTerminal "N", .terminal "b", .empty]]),
      ("N", [[], [.nonTerminal "N", .nonTerminal "N"]])]
  start := some "S"

theorem chomsky_tangled :
    tangled.WellFormed ∧
      tangled.chomsky.grammar.isChomsky = true ∧
      tangled.chomsky.grammar.start = tangled.start ∧
      tangled.chomsky.grammar.terminals = tangled.terminals ∧
      (∀ name, name ∈ tangled.nonTerminals →
        tangled.start = some name ∨ ¬ name ∈ tangled.nullNonTerminals →
        ∀ word, word ≠ [] →
          (tangled.chomsky.grammar.Derives name word ↔ tangled.Derives name word)) ∧
      ∀ start, tangled.start = some start →
        (tangled.chomsky.grammar.Derives start [] ↔ tangled.Derives start []) :=
  have wellFormed : tangled.WellFormed := fault?_eq_none_iff.mp (by decide)
  ⟨wellFormed, chomsky_preserves_language tangled wellFormed⟩

end FormalLanguages.Grammar
