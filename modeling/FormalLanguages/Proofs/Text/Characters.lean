import FormalLanguages.Name.Subscript
import FormalLanguages.Text.Blank
import FormalLanguages.Text.Uppercase
import Mathlib.Data.List.Basic

namespace FormalLanguages.Text

/-! # Kinds of characters

Blanks, subscripts and capitals are kept apart by their codes: what holds of the characters
with the listed codes holds of every character whose code is listed. -/

theorem of_code {holds : Char → Prop} {codes : List Nat} {character : Char}
    (listed : character.toNat ∈ codes) (each : ∀ code, code ∈ codes → holds (Char.ofNat code)) :
    holds character := by
  rw [← Char.ofNat_toNat character]
  exact each character.toNat listed

theorem not_uppercase_of_isBlank {character : Char} (blank : isBlank character = true) :
    isUppercase character = false := by
  have codes : character.toNat ∈ [0x20, 0x85, 0xA0, 0x1680, 0x2028, 0x2029, 0x202F, 0x205F, 0x3000]
      ++ List.range' 0x09 5 ++ List.range' 0x2000 11 := by
    simp only [isBlank, Bool.or_eq_true, Bool.and_eq_true, decide_eq_true_eq, beq_iff_eq] at blank
    simp only [List.mem_append, List.mem_cons, List.mem_range'_1, List.not_mem_nil, or_false]
    omega
  apply of_code codes
  decide

theorem code_of_isSubscript {character : Char} (subscript : Name.isSubscript character = true) :
    character.toNat ∈ List.range' 0x2080 10 := by
  simp only [Name.isSubscript, Bool.and_eq_true, decide_eq_true_eq, Char.le_def,
    UInt32.le_iff_toNat_le] at subscript
  exact List.mem_range'_1.mpr ⟨subscript.1, Nat.lt_succ_of_le subscript.2⟩

theorem not_isBlank_of_isSubscript {character : Char}
    (subscript : Name.isSubscript character = true) : isBlank character = false := by
  apply of_code (code_of_isSubscript subscript)
  decide

theorem code_of_isDigit {character : Char} (digit : character.isDigit = true) :
    character.toNat ∈ List.range' 48 10 := by
  simp only [Char.isDigit, Bool.and_eq_true, decide_eq_true_eq, ge_iff_le,
    UInt32.le_iff_toNat_le] at digit
  exact List.mem_range'_1.mpr ⟨digit.1, Nat.lt_succ_of_le digit.2⟩

theorem isSubscript_lowered {digit : Char} (isDigit : digit.isDigit = true) :
    Name.isSubscript (Name.lowered digit) = true := by
  apply of_code (code_of_isDigit isDigit)
  decide

end FormalLanguages.Text
