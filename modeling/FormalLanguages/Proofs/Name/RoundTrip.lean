import FormalLanguages.Proofs.Name.Counting
import Mathlib.Data.List.Induction

namespace FormalLanguages.Name

/-! # Numbers that are written and read back

A stem that does not end in a subscript, and a number of 64 bits, are read back from the name
that they make. A name that is read is written again as it was if no zeros stand in front of its
number. Numbers that differ make different names after any stem, so a supply never gives a name
for the second time. -/

/-! ## Digits -/

theorem subscriptDigits_append {high low : Nat} (positive : 0 < high) (small : low < 10) :
    subscriptDigits (10 * high + low) = subscriptDigits high ++ subscriptDigits low := by
  rw [subscriptDigits, ← Nat.toDigits_append_toDigits (by decide) positive small, List.map_append]
  rfl

/-- Only zero itself begins with a zero. -/
theorem head?_subscriptDigits_ne {number : Nat} (positive : 0 < number) :
    (subscriptDigits number).head? ≠ some '₀' := by
  induction number using Nat.strongRecOn with
  | ind number induction =>
      rcases Nat.lt_or_ge number 10 with small | large
      · have each : ∀ digit, digit ∈ List.range' 1 9 →
            (subscriptDigits digit).head? ≠ some '₀' := by decide
        exact each number (List.mem_range'_1.mpr ⟨positive, small⟩)
      · have high : 0 < number / 10 := by omega
        rw [← Nat.div_add_mod number 10, subscriptDigits_append high (by omega),
          List.head?_append_of_ne_nil _ (subscriptDigits_ne_nil _)]
        exact induction _ (by omega) high

section Digit

variable {digit : Char} (subscript : isSubscript digit = true)

include subscript

theorem value_lt_ten : digit.toNat - '₀'.toNat < 10 := by
  have code := List.mem_range'_1.mp (Text.code_of_isSubscript subscript)
  have zero : '₀'.toNat = 0x2080 := rfl
  omega

theorem subscriptDigits_value : subscriptDigits (digit.toNat - '₀'.toNat) = [digit] := by
  apply Text.of_code (Text.code_of_isSubscript subscript)
  decide

end Digit

theorem spelled_append_singleton (digits : List Char) (digit : Char) :
    spelled (digits ++ [digit]) = 10 * spelled digits + (digit.toNat - '₀'.toNat) := by
  rw [spelled, List.foldl_append, List.foldl_cons, List.foldl_nil, ← spelled]

section Digits

variable {digits : List Char} (filled : digits ≠ [])
  (subscripts : ∀ digit, digit ∈ digits → isSubscript digit = true)

include filled subscripts

/-- By induction from the last digit on: the digits before it spell a positive number, as they
begin with no zero either. -/
theorem subscriptDigits_spelled (significant : digits.head? ≠ some '₀') :
    subscriptDigits (spelled digits) = digits := by
  induction digits using List.reverseRecOn with
  | nil => exact absurd rfl filled
  | append_singleton before last induction =>
      rcases List.forall_mem_append.mp subscripts with ⟨others, alone⟩
      have subscript := alone last List.mem_cons_self
      rw [spelled_append_singleton]
      by_cases single : before = []
      · rw [single, spelled, List.foldl_nil, Nat.mul_zero, Nat.zero_add]
        exact subscriptDigits_value subscript
      · rw [List.head?_append_of_ne_nil _ single] at significant
        have own := induction single others significant
        have positive : 0 < spelled before := by
          refine Nat.pos_of_ne_zero fun zero => significant ?_
          rw [← own, zero]
          rfl
        rw [subscriptDigits_append positive (value_lt_ten subscript), own,
          subscriptDigits_value subscript]

/-- Subscripts are written again as they were unless they begin with a zero that says nothing. -/
theorem subscriptDigits_spelled_iff :
    subscriptDigits (spelled digits) = digits ↔ digits.head? ≠ some '₀' ∨ digits = ['₀'] := by
  constructor
  · intro same
    rcases Nat.eq_zero_or_pos (spelled digits) with zero | positive
    · rw [zero] at same
      exact .inr same.symm
    · exact .inl (same ▸ head?_subscriptDigits_ne positive)
  · intro shortest
    rcases shortest with significant | rfl
    · exact subscriptDigits_spelled filled subscripts significant
    · rfl

end Digits

/-! ## Names -/

/-- The stem does not end in a subscript. -/
def Bare (stem : String) : Prop :=
  ∀ last, stem.toList.getLast? = some last → isSubscript last = false

theorem Bare.parts_numbered {stem : String} (bare : Bare stem) (number : Nat) :
    Parts (numbered stem number) stem.toList (subscriptDigits number) where
  whole := toList_numbered stem number
  bare := bare
  subscripts _ := isSubscript_of_mem_subscriptDigits

theorem Bare.read?_numbered {stem : String} (bare : Bare stem) {number : Nat}
    (fits : number < numberLimit) : read? (numbered stem number) = some ⟨stem, number⟩ := by
  have counted := not_or.mpr ⟨subscriptDigits_ne_nil number, Nat.not_le.mpr fits⟩
  rw [(bare.parts_numbered number).read?_eq, spelled_subscriptDigits, if_neg counted,
    String.ofList_toList]

theorem exists_parts_of_read? {name stem : String} {number : Nat}
    (read : read? name = some ⟨stem, number⟩) : ∃ digits, Parts name stem.toList digits ∧
      digits ≠ [] ∧ spelled digits = number ∧ number < numberLimit := by
  have parts := parts_of_name name
  rw [parts.read?_eq] at read
  split at read
  case isTrue => cases read
  case isFalse counted =>
    cases read
    rw [not_or, Nat.not_le] at counted
    refine ⟨_, ?_, counted.1, rfl, counted.2⟩
    rwa [String.toList_ofList]

theorem Parts.numbered_eq_iff {name stem : String} {digits : List Char}
    (parts : Parts name stem.toList digits) {number : Nat} :
    numbered stem number = name ↔ subscriptDigits number = digits := by
  rw [← String.toList_inj, toList_numbered, parts.whole, List.append_cancel_left_eq]

theorem take_eq_series (supply : Supply) (count : Nat) :
    supply.take count = series supply.stem supply.next count := by
  induction count generalizing supply with
  | zero => rfl
  | succ count induction =>
      rw [Supply.take, induction]
      rfl

/-- Numbers are read back as they were written, and names that are read are written again as they
were, up to zeros in front. A supply counts from zero on, and its names all differ. -/
theorem read_numbered_exact (stem : String) :
    (Bare stem → ∀ number, number < numberLimit →
        read? (numbered stem number) = some ⟨stem, number⟩) ∧
      (∀ name number, read? name = some ⟨stem, number⟩ →
        ∃ digits, Parts name stem.toList digits ∧ digits ≠ [] ∧ spelled digits = number ∧
          number < numberLimit ∧
          (numbered stem number = name ↔ digits.head? ≠ some '₀' ∨ digits = ['₀'])) ∧
      ∀ count, Supply.take ⟨stem, 0⟩ count = series stem 0 count ∧
        (Supply.take ⟨stem, 0⟩ count).Nodup := by
  refine ⟨fun bare number => bare.read?_numbered, fun name number read => ?_, fun count => ?_⟩
  · rcases exists_parts_of_read? read with ⟨digits, parts, filled, rfl, fits⟩
    refine ⟨digits, parts, filled, rfl, fits, parts.numbered_eq_iff.trans ?_⟩
    exact subscriptDigits_spelled_iff filled parts.subscripts
  · rw [take_eq_series]
    exact ⟨rfl, nodup_series stem 0 count⟩

/-- The greatest number is read back after a stem that holds subscripts, and a name keeps no zero
in front of its number. -/
theorem read_numbered_greatest :
    Bare "x₃y" ∧ 18446744073709551615 < numberLimit ∧
      read? (numbered "x₃y" 18446744073709551615) = some ⟨"x₃y", 18446744073709551615⟩ ∧
      read? "x₃y₀₁₀" = some ⟨"x₃y", 10⟩ ∧
      (∃ digits, Parts "x₃y₀₁₀" "x₃y".toList digits ∧ digits ≠ [] ∧ spelled digits = 10 ∧
        10 < numberLimit ∧
        (numbered "x₃y" 10 = "x₃y₀₁₀" ↔ digits.head? ≠ some '₀' ∨ digits = ['₀'])) ∧
      (Supply.take ⟨"x₃y", 0⟩ 12).Nodup :=
  have bare : Bare "x₃y" := by
    intro last ends
    cases ends
    decide
  have fits : 18446744073709551615 < numberLimit := by decide
  have read : read? "x₃y₀₁₀" = some ⟨"x₃y", 10⟩ := by decide
  have exact := read_numbered_exact "x₃y"
  ⟨bare, fits, exact.1 bare _ fits, read, exact.2.1 _ _ read, (exact.2.2 12).2⟩

end FormalLanguages.Name
