import FormalLanguages.Grammar.Membership
import FormalLanguages.Proofs.Collection.Parts
import FormalLanguages.Proofs.Grammar.NormalForm.Chomsky
import FormalLanguages.Proofs.Text.Segmentation

namespace FormalLanguages.Grammar

/-! # What the membership table holds

A cell of the table holds the non-terminals that derive its part of the input. For the
normal form this is an induction on the length of the part, and the normal form answers
for the grammar that it was made from. -/

variable {grammar : Grammar} {input : List String}

namespace Membership

/-! ## Which cells there are -/

@[simp] theorem input_fillUpTo {length : Nat} : (fillUpTo grammar input length).input = input := by
  induction length with
  | zero => rfl
  | succ length induction => exact induction

theorem rows_fillUpTo (length : Nat) : (fillUpTo grammar input length).rows =
    (List.range length).map fun shorter =>
      row grammar (fillUpTo grammar input shorter) (shorter + 1) := by
  induction length with
  | zero => rfl
  | succ length induction =>
      rw [List.range_succ, List.map_append, ← induction]
      rfl

theorem get?_row {shorter : Table} {length start : Nat} : (row grammar shorter length)[start]? =
    if start + length ≤ shorter.input.length then some (cell grammar shorter length start)
    else none := by
  rw [row, List.getElem?_map]
  split
  case isTrue within =>
    rw [List.getElem?_range (by omega)]
    rfl
  case isFalse beyond =>
    rw [List.getElem?_eq_none (by rw [List.length_range]; omega)]
    rfl

/-- The cell of a part is filled from the table of all shorter parts. -/
theorem get?_fillUpTo {filled start length : Nat} :
    (fillUpTo grammar input filled).get? start (length + 1) =
      if length < filled ∧ start + (length + 1) ≤ input.length then
        some (cell grammar (fillUpTo grammar input length) (length + 1) start)
      else none := by
  rw [Table.get?, if_neg (Nat.succ_ne_zero length), Nat.add_sub_cancel, rows_fillUpTo,
    List.getElem?_map]
  by_cases known : length < filled
  · rw [List.getElem?_range known, Option.map_some, Option.bind_some, get?_row, input_fillUpTo]
    simp only [known, true_and]
  · rw [List.getElem?_eq_none (by rw [List.length_range]; omega), if_neg fun both => known both.1]
    rfl

theorem isSome_get?_fill {start length : Nat} :
    ((fill grammar input).get? start length).isSome = true ↔
      1 ≤ length ∧ start + length ≤ input.length := by
  cases length with
  | zero => simp [Table.get?]
  | succ length =>
      rw [fill, get?_fillUpTo]
      split
      case isTrue both => exact iff_of_true rfl ⟨by omega, both.2⟩
      case isFalse missing => exact iff_of_false Bool.noConfusion fun both => missing (by omega)

/-! ## What a cell is filled with -/

theorem mem_headsWhere (test : List Alternative → Bool) {name : String} :
    name ∈ (grammar.productions.entries.filter fun production => test production.2).map Prod.fst ↔
      ∃ alternatives, grammar.productions.get? name = some alternatives ∧
        test alternatives = true := by
  simp only [List.mem_map, List.mem_filter]
  constructor
  · intro found
    rcases found with ⟨⟨name, alternatives⟩, ⟨inside, passes⟩, rfl⟩
    exact ⟨alternatives, DeclaredMap.get?_eq_some_iff.mpr inside, passes⟩
  · intro found
    rcases found with ⟨alternatives, found, passes⟩
    exact ⟨(name, alternatives), ⟨DeclaredMap.get?_eq_some_iff.mp found, passes⟩, rfl⟩

theorem mem_terminalHeads {token name : String} :
    name ∈ terminalHeads grammar token ↔ [.terminal token] ∈ grammar.alternatives name := by
  refine SortedSet.mem_ofList.trans
    ((mem_headsWhere fun alternatives => [.terminal token] ∈ alternatives).trans ?_)
  simp only [decide_eq_true_eq, mem_alternatives_iff]

theorem isPair_iff {left right : Cell} {alternative : Alternative} :
    isPair left right alternative = true ↔ ∃ first second,
      alternative = [.nonTerminal first, .nonTerminal second] ∧ first ∈ left ∧
        second ∈ right := by
  rw [isPair.eq_def]
  split <;> simp_all

theorem mem_pairHeads {left right : Cell} {name : String} :
    name ∈ pairHeads grammar left right ↔ ∃ first second,
      [.nonTerminal first, .nonTerminal second] ∈ grammar.alternatives name ∧
        first ∈ left ∧ second ∈ right := by
  apply (mem_headsWhere fun alternatives => alternatives.any (isPair left right)).trans
  simp only [List.any_eq_true, isPair_iff, mem_alternatives_iff]
  constructor
  · intro found
    rcases found with ⟨alternatives, found, _, member, first, second, rfl, inLeft, inRight⟩
    exact ⟨first, second, ⟨alternatives, found, member⟩, inLeft, inRight⟩
  · intro found
    rcases found with ⟨first, second, ⟨alternatives, found, member⟩, inLeft, inRight⟩
    exact ⟨alternatives, found, _, member, first, second, rfl, inLeft, inRight⟩

/-! ## Cells of a grammar in normal form -/

section NormalForm

variable (normal : grammar.isChomsky = true)

include normal

theorem isChomskyAlternative_of_mem {name : String} {alternative : Alternative}
    (member : alternative ∈ grammar.alternatives name) :
    isChomskyAlternative grammar.start name alternative = true := by
  rcases mem_alternatives_iff.mp member with ⟨alternatives, found, inside⟩
  have whole := List.all_eq_true.mp normal (name, alternatives)
    (DeclaredMap.get?_eq_some_iff.mp found)
  exact List.all_eq_true.mp whole alternative inside

theorem forms_iff {name : String} {word : List String} : grammar.Forms name word ↔
    (∃ token, word = [token] ∧ [.terminal token] ∈ grammar.alternatives name) ∨
      ∃ first second left right,
        [.nonTerminal first, .nonTerminal second] ∈ grammar.alternatives name ∧
          word = left ++ right ∧ grammar.Forms first left ∧ grammar.Forms second right := by
  constructor
  · intro found
    rcases found with ⟨nonempty, alternative, member, builds⟩
    have shape := isChomskyAlternative_of_mem normal member
    match alternative, shape with
    | [.terminal token], _ =>
        rcases builds_terminal_cons_iff.mp builds with ⟨tail, rfl, rest⟩
        rw [builds_nil_iff.mp rest]
        exact .inl ⟨token, rfl, member⟩
    | [.nonTerminal first, .nonTerminal second], _ =>
        rcases builds_nonTerminal_cons_iff.mp builds with ⟨left, right, rfl, forms, rest⟩
        exact .inr ⟨first, second, left, right, member, rfl, forms, builds_singleton_iff.mp rest⟩
    | [.empty], _ => exact absurd builds not_builds_empty
  · intro either
    rcases either with
      ⟨token, rfl, member⟩ | ⟨first, second, left, right, member, rfl, before, after⟩
    · exact ⟨List.cons_ne_nil _ _, _, member, .terminal token .done⟩
    · refine ⟨List.append_ne_nil_of_left_ne_nil before.1 right, _, member, ?_⟩
      exact builds_nonTerminal_cons_iff.mpr
        ⟨left, right, rfl, before, builds_singleton_iff.mpr after⟩

theorem mem_cell_one {start : Nat} (within : start + 1 ≤ input.length) {name : String} :
    name ∈ cell grammar (fillUpTo grammar input 0) 1 start ↔
      grammar.Forms name (part input start 1) := by
  have found := List.getElem?_eq_getElem within
  rw [cell, if_pos rfl, input_fillUpTo, found, part_one_iff.mpr found, forms_iff normal]
  change name ∈ terminalHeads grammar input[start] ↔ _
  rw [mem_terminalHeads]
  constructor
  · exact fun member => .inl ⟨_, rfl, member⟩
  · intro either
    rcases either with ⟨token, same, member⟩ | ⟨_, _, left, right, _, same, before, after⟩
    · cases same
      exact member
    · rcases List.append_eq_singleton_iff.mp same.symm with ⟨none, _⟩ | ⟨_, none⟩
      · exact absurd none before.1
      · exact absurd none after.1

omit normal in
theorem mem_splitHeads {start length size : Nat} (below : size ≤ length)
    (within : start + (length + 2) ≤ input.length) {name : String} :
    name ∈ splitHeads grammar (fillUpTo grammar input (length + 1)) start (length + 2) (size + 1) ↔
      ∃ first second, [.nonTerminal first, .nonTerminal second] ∈ grammar.alternatives name ∧
        first ∈ cell grammar (fillUpTo grammar input size) (size + 1) start ∧
        second ∈ cell grammar (fillUpTo grammar input (length - size)) (length - size + 1)
          (start + (size + 1)) := by
  have rest : length + 2 - (size + 1) = length - size + 1 := by omega
  rw [splitHeads, rest, get?_fillUpTo, if_pos (by omega), get?_fillUpTo, if_pos (by omega)]
  exact mem_pairHeads

/-- A longer part is derived by a pair that derives the two sides of one of its splits. -/
theorem mem_longCell {start length : Nat} (within : start + (length + 2) ≤ input.length)
    (shorter : ∀ start size name, size < length + 1 → start + (size + 1) ≤ input.length →
      (name ∈ cell grammar (fillUpTo grammar input size) (size + 1) start ↔
        grammar.Forms name (part input start (size + 1)))) {name : String} :
    name ∈ longCell grammar (fillUpTo grammar input (length + 1)) (length + 2) start ↔
      grammar.Forms name (part input start (length + 2)) := by
  have size := length_part within
  rw [longCell, SortedSet.mem_ofList, List.mem_flatMap, forms_iff normal]
  constructor
  · intro found
    rcases found with ⟨split, inRange, member⟩
    have bounds := List.mem_range'_1.mp inRange
    rcases Nat.exists_eq_add_of_le' bounds.1 with ⟨first, rfl⟩
    rcases (mem_splitHeads (by omega) within).mp member with
      ⟨left, right, pair, inLeft, inRight⟩
    refine .inr ⟨left, right, part input start (first + 1),
      part input (start + (first + 1)) (length - first + 1), pair, ?_,
      (shorter _ _ _ (by omega) (by omega)).mp inLeft,
      (shorter _ _ _ (by omega) (by omega)).mp inRight⟩
    rw [← part_add]
    congr 1
    omega
  · intro either
    rcases either with ⟨token, same, _⟩ | ⟨first, second, left, right, pair, same, before, after⟩
    · rw [same] at size
      exact absurd size (by simp)
    · rcases part_eq_append within same with ⟨fits, leftPart, rightPart⟩
      have leftFilled := List.length_pos_iff.mpr before.1
      have rightFilled := List.length_pos_iff.mpr after.1
      rw [same, List.length_append] at size
      rcases Nat.exists_eq_add_of_le' leftFilled with ⟨split, splitSize⟩
      have rest : length + 2 - (split + 1) = length - split + 1 := by omega
      rw [splitSize] at leftPart rightPart
      rw [leftPart] at before
      rw [rightPart, rest] at after
      refine ⟨split + 1, List.mem_range'_1.mpr (by omega), ?_⟩
      exact (mem_splitHeads (by omega) within).mpr ⟨first, second, pair,
        (shorter _ _ _ (by omega) (by omega)).mpr before,
        (shorter _ _ _ (by omega) (by omega)).mpr after⟩

theorem mem_cell {start length : Nat} (within : start + (length + 1) ≤ input.length)
    {name : String} :
    name ∈ cell grammar (fillUpTo grammar input length) (length + 1) start ↔
      grammar.Forms name (part input start (length + 1)) := by
  induction length using Nat.strongRecOn generalizing start name with
  | ind length induction =>
      cases length with
      | zero => exact mem_cell_one normal within
      | succ length =>
          rw [cell, if_neg (by omega)]
          exact mem_longCell normal within fun start size name smaller within =>
            induction size smaller within

end NormalForm

/-! ## Tables of inputs -/

theorem tokenise_ne_nil {input : String} (filled : input ≠ "") : grammar.tokenise input ≠ [] := by
  intro none
  have whole := Text.flatMap_split grammar.terminals.toList input
  rw [← tokenise, none] at whole
  exact filled (String.toList_eq_nil_iff.mp whole.symm)

section Input

variable (wellFormed : grammar.WellFormed)

include wellFormed

theorem membership_eq_fill (input : String) :
    grammar.membership input = fill grammar.chomsky.grammar (grammar.tokenise input) := by
  rw [membership, tokenise, wellFormed.terminals_chomsky, tokenise]

theorem isSome_get?_membership (input : String) (start length : Nat) :
    ((grammar.membership input).get? start length).isSome = true ↔
      1 ≤ length ∧ start + length ≤ (grammar.tokenise input).length := by
  rw [membership_eq_fill wellFormed]
  exact isSome_get?_fill

theorem mem_get?_membership {input : String} {start length : Nat} {found : Cell}
    (known : (grammar.membership input).get? start length = some found) {name : String} :
    name ∈ found ↔ grammar.chomsky.grammar.Derives name
      (part (grammar.tokenise input) start length) := by
  have bounds := (isSome_get?_membership wellFormed input start length).mp
    (Option.isSome_of_eq_some known)
  have nonempty := part_ne_nil bounds.1 bounds.2
  rcases Nat.exists_eq_add_of_le' bounds.1 with ⟨shorter, rfl⟩
  rw [membership_eq_fill wellFormed, fill, get?_fillUpTo, if_pos ⟨by omega, bounds.2⟩] at known
  cases known
  rw [mem_cell wellFormed.isChomsky_chomsky bounds.2, Chomsky.derives_iff_forms wellFormed nonempty]

theorem derives_membership {input name : String} :
    (grammar.membership input).derives name = true ↔ grammar.tokenise input ≠ [] ∧
      grammar.chomsky.grammar.Derives name (grammar.tokenise input) := by
  have sameInput : (grammar.membership input).input = grammar.tokenise input := by
    rw [membership_eq_fill wellFormed]
    exact input_fillUpTo
  rw [Table.derives, sameInput]
  cases known : (grammar.membership input).get? 0 (grammar.tokenise input).length with
  | none =>
      refine iff_of_false Bool.noConfusion fun both => ?_
      have filled := (isSome_get?_membership wellFormed input 0 _).mpr
        ⟨List.length_pos_iff.mpr both.1, Nat.le_of_eq (Nat.zero_add _)⟩
      rw [known] at filled
      cases filled
  | some found =>
      have filled := (isSome_get?_membership wellFormed input 0 _).mp
        (Option.isSome_of_eq_some known)
      have holds : name ∈ found ↔ _ := mem_get?_membership wellFormed known
      rw [part_whole] at holds
      rw [← holds]
      refine decide_eq_true_iff.trans (iff_and_self.mpr fun _ => ?_)
      exact List.length_pos_iff.mp filled.1

theorem mem_get?_membership_of_stays {input : String} {start length : Nat} {found : Cell}
    (known : (grammar.membership input).get? start length = some found) {name : String}
    (declared : name ∈ grammar.nonTerminals)
    (stays : grammar.start = some name ∨ ¬ name ∈ grammar.nullNonTerminals) :
    name ∈ found ↔ grammar.Derives name (part (grammar.tokenise input) start length) := by
  have bounds := (isSome_get?_membership wellFormed input start length).mp
    (Option.isSome_of_eq_some known)
  rw [mem_get?_membership wellFormed known]
  exact wellFormed.derives_chomsky_iff declared stays (part_ne_nil bounds.1 bounds.2)

theorem derives_membership_iff {input : String} (filled : input ≠ "") {start : String}
    (isStart : grammar.start = some start) :
    (grammar.membership input).derives start = true ↔
      grammar.Derives start (grammar.tokenise input) := by
  have sameInput : (grammar.membership input).input = grammar.tokenise input := by
    rw [membership_eq_fill wellFormed]
    exact input_fillUpTo
  have whole := (isSome_get?_membership wellFormed input 0 (grammar.tokenise input).length).mpr
    ⟨List.length_pos_iff.mpr (tokenise_ne_nil filled), by omega⟩
  rcases Option.isSome_iff_exists.mp whole with ⟨found, known⟩
  have holds := mem_get?_membership_of_stays wellFormed known (wellFormed.start start isStart)
    (.inl isStart)
  rw [part_whole] at holds
  rw [Table.derives, sameInput, known, ← holds]
  exact decide_eq_true_iff

end Input

end Membership

/-- The table of an input has a cell for every part that is not empty. It holds what derives
the part in the normal form, and of the non-terminals that are not removed those that derive
it in the grammar itself. -/
theorem membership_exact (grammar : Grammar) (wellFormed : grammar.WellFormed) (input : String) :
    (∀ start length, ((grammar.membership input).get? start length).isSome = true ↔
      1 ≤ length ∧ start + length ≤ (grammar.tokenise input).length) ∧
      (∀ start length found, (grammar.membership input).get? start length = some found →
        (∀ name, name ∈ found ↔ grammar.chomsky.grammar.Derives name
          (part (grammar.tokenise input) start length)) ∧
        ∀ name, name ∈ grammar.nonTerminals →
          grammar.start = some name ∨ ¬ name ∈ grammar.nullNonTerminals →
          (name ∈ found ↔ grammar.Derives name (part (grammar.tokenise input) start length))) ∧
      (input ≠ "" → ∀ start, grammar.start = some start →
        ((grammar.membership input).derives start = true ↔
          grammar.Derives start (grammar.tokenise input))) :=
  ⟨Membership.isSome_get?_membership wellFormed input,
    fun _ _ _ known => ⟨fun _ => Membership.mem_get?_membership wellFormed known,
      fun _ => Membership.mem_get?_membership_of_stays wellFormed known⟩,
    fun filled _ => Membership.derives_membership_iff wellFormed filled⟩

theorem membership_exact_tangled :
    tangled.WellFormed ∧
      (∀ start length, ((tangled.membership "aabb").get? start length).isSome = true ↔
        1 ≤ length ∧ start + length ≤ (tangled.tokenise "aabb").length) ∧
      (∀ start length found, (tangled.membership "aabb").get? start length = some found →
        (∀ name, name ∈ found ↔ tangled.chomsky.grammar.Derives name
          (part (tangled.tokenise "aabb") start length)) ∧
        ∀ name, name ∈ tangled.nonTerminals →
          tangled.start = some name ∨ ¬ name ∈ tangled.nullNonTerminals →
          (name ∈ found ↔ tangled.Derives name (part (tangled.tokenise "aabb") start length))) ∧
      ("aabb" ≠ "" → ∀ start, tangled.start = some start →
        ((tangled.membership "aabb").derives start = true ↔
          tangled.Derives start (tangled.tokenise "aabb"))) :=
  have wellFormed : tangled.WellFormed := fault?_eq_none_iff.mp (by decide)
  ⟨wellFormed, membership_exact tangled wellFormed "aabb"⟩

end FormalLanguages.Grammar
