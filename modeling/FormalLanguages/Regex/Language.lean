import FormalLanguages.Regex.Basic

/-! # The language of a regular expression

Symbols and references may stand for any languages at all. Two choices matter: the
language over symbols, where each name is one letter, and the language over
characters, where a symbol stands for its own text and a reference for nothing. -/

namespace FormalLanguages.Regex

/-- What the names in an expression stand for. -/
structure Meaning (α : Type) where
  symbol : String → List α → Prop
  reference : String → List α → Prop

inductive Matches {α : Type} (meaning : Meaning α) : Regex → List α → Prop
  | nil : Matches meaning .nil []
  | symbol {name : String} {word : List α} (holds : meaning.symbol name word) :
      Matches meaning (.symbol name) word
  | reference {name : String} {word : List α} (holds : meaning.reference name word) :
      Matches meaning (.reference name) word
  | sequence {first second : Regex} {before after : List α}
      (left : Matches meaning first before) (right : Matches meaning second after) :
      Matches meaning (.sequence first second) (before ++ after)
  | left {left right : Regex} {word : List α} (holds : Matches meaning left word) :
      Matches meaning (.alternative left right) word
  | right {left right : Regex} {word : List α} (holds : Matches meaning right word) :
      Matches meaning (.alternative left right) word
  | done {body : Regex} : Matches meaning (.star body) []
  | again {body : Regex} {first rest : List α} (once : Matches meaning body first)
      (more : Matches meaning (.star body) rest) : Matches meaning (.star body) (first ++ rest)

/-- Every name is a letter of its own. -/
def Meaning.letters : Meaning String where
  symbol name word := word = [name]
  reference name word := word = [name]

/-- A symbol is its own text, and a reference is not there to be matched. -/
def Meaning.characters : Meaning Char where
  symbol name word := word = name.toList
  reference _ _ := False

/-- The sequences of symbols that an expression describes. -/
def MatchesSymbols : Regex → List String → Prop := Matches Meaning.letters

/-- The texts that an expression describes. -/
def MatchesText : Regex → List Char → Prop := Matches Meaning.characters

section Inversion

variable {α : Type} {meaning : Meaning α} {word : List α}

@[simp] theorem matches_empty_iff : Matches meaning .empty word ↔ False :=
  ⟨(nomatch ·), False.elim⟩

@[simp] theorem matches_nil_iff : Matches meaning .nil word ↔ word = [] := by
  constructor
  · intro holds
    cases holds
    rfl
  · exact fun equal => equal ▸ .nil

@[simp] theorem matches_symbol_iff {name : String} :
    Matches meaning (.symbol name) word ↔ meaning.symbol name word := by
  constructor
  · intro holds
    cases holds
    assumption
  · exact .symbol

@[simp] theorem matches_reference_iff {name : String} :
    Matches meaning (.reference name) word ↔ meaning.reference name word := by
  constructor
  · intro holds
    cases holds
    assumption
  · exact .reference

theorem matches_sequence_iff {first second : Regex} :
    Matches meaning (.sequence first second) word ↔
      ∃ before after, Matches meaning first before ∧ Matches meaning second after ∧
        word = before ++ after := by
  constructor
  · intro holds
    cases holds with
    | sequence left right => exact ⟨_, _, left, right, rfl⟩
  · rintro ⟨_, _, left, right, equal⟩
    exact equal ▸ .sequence left right

theorem matches_alternative_iff {left right : Regex} :
    Matches meaning (.alternative left right) word ↔
      Matches meaning left word ∨ Matches meaning right word := by
  constructor
  · intro holds
    cases holds with
    | left holds => exact .inl holds
    | right holds => exact .inr holds
  · exact fun either => either.elim .left .right

end Inversion

end FormalLanguages.Regex
