import FormalLanguages.Grammar.Analysis
import FormalLanguages.Proofs.Collection.Members
import FormalLanguages.Proofs.Grammar.Meanings

namespace FormalLanguages.Grammar

/-! # What the fixed points hold

A set that is grown over the productions is closed under them and holds nothing else.
The nullable non-terminals are those that derive the empty sequence, and those called
null derive nothing else. -/

variable {grammar : Grammar} {admits : Admission} {found : SortedSet String}

/-! ## Growing -/

theorem mem_join {name member : String} :
    member ∈ grammar.join admits found name ↔
      (member = name ∧ ¬ name ∈ found ∧ admits (grammar.alternatives name) found = true) ∨
        member ∈ found := by
  rw [join]
  split
  case isTrue joins =>
    simp only [Bool.and_eq_true, decide_eq_true_eq] at joins
    rw [SortedSet.mem_insert, and_iff_left joins]
  case isFalse stays =>
    simp only [Bool.and_eq_true, decide_eq_true_eq] at stays
    exact (or_iff_right fun joins => stays joins.2).symm

theorem mem_foldl_join (names : List String) {member : String} (inside : member ∈ found) :
    member ∈ names.foldl (grammar.join admits) found :=
  List.foldlRecOn (motive := fun grown : SortedSet String => member ∈ grown) names _ inside
    fun _ before _ _ => mem_join.mpr (.inr before)

section Pass

variable {names : List String}
  (same : (names.foldl (grammar.join admits) found).size = found.size)

include same

theorem mem_of_mem_foldl_join {member : String}
    (inside : member ∈ names.foldl (grammar.join admits) found) : member ∈ found := by
  apply Classical.byContradiction
  intro new
  have larger := SortedSet.size_lt_length (fun _ before => mem_foldl_join names before) inside new
  rw [← SortedSet.size, same] at larger
  exact Nat.lt_irrefl _ larger

/-- A pass that does not grow the set finds it closed. -/
theorem closed_of_size_eq {name : String} (member : name ∈ names)
    (admitted : admits (grammar.alternatives name) found = true) : name ∈ found := by
  rcases List.append_of_mem member with ⟨before, after, rfl⟩
  rw [List.foldl_append, List.foldl_cons] at same
  let known := before.foldl (grammar.join admits) found
  have back : ∀ other, other ∈ after.foldl (grammar.join admits) (grammar.join admits known name) →
      other ∈ found := by
    intro other inside
    rw [← List.foldl_cons, ← List.foldl_append] at same inside
    exact mem_of_mem_foldl_join same inside
  have unchanged : known = found := by
    refine SortedSet.ext fun other => ⟨fun inside => back other ?_, mem_foldl_join before⟩
    exact mem_foldl_join after (mem_join.mpr (.inr inside))
  by_cases inside : name ∈ found
  · exact inside
  · refine back name (mem_foldl_join after (mem_join.mpr (.inl ⟨rfl, ?_, ?_⟩)))
    · rwa [unchanged]
    · rwa [unchanged]

end Pass

/-- Enough passes are made: each one adds a non-terminal or finds the set closed. -/
theorem closed_grownWithin {passes : Nat}
    (inside : ∀ name, name ∈ found → name ∈ grammar.nonTerminals)
    (enough : grammar.nonTerminals.toList.length ≤ found.size + passes) {name : String}
    (member : name ∈ grammar.nonTerminals)
    (admitted : admits (grammar.alternatives name)
      (grammar.grownWithin admits passes found) = true) :
    name ∈ grammar.grownWithin admits passes found := by
  induction passes generalizing found with
  | zero =>
      apply Classical.byContradiction
      intro new
      have larger := SortedSet.size_lt_length inside member new
      omega
  | succ passes induction =>
      rw [grownWithin] at admitted ⊢
      split
      case isTrue same =>
        rw [if_pos same] at admitted
        exact closed_of_size_eq same member admitted
      case isFalse different =>
        rw [if_neg different] at admitted
        refine induction ?_ ?_ admitted
        · intro other grown
          refine List.foldlRecOn (motive := fun grown : SortedSet String =>
            other ∈ grown → other ∈ grammar.nonTerminals) _ _ (inside other) ?_ grown
          intro known before name listed joined
          rcases mem_join.mp joined with ⟨rfl, _⟩ | already
          · exact listed
          · exact before already
        · have larger : found.size ≤ (grammar.nonTerminals.toList.foldl
              (grammar.join admits) found).size :=
            SortedSet.size_le_length fun _ before => mem_foldl_join _ before
          omega

theorem grownWithin_sound {holds : String → Prop}
    (step : ∀ name known, name ∈ grammar.nonTerminals → (∀ member, member ∈ known → holds member) →
      admits (grammar.alternatives name) known = true → holds name)
    {passes : Nat} (before : ∀ member, member ∈ found → holds member) :
    ∀ member, member ∈ grammar.grownWithin admits passes found → holds member := by
  induction passes generalizing found with
  | zero => exact before
  | succ passes induction =>
      have after : ∀ member,
          member ∈ grammar.nonTerminals.toList.foldl (grammar.join admits) found →
          holds member := by
        refine List.foldlRecOn (motive := fun grown : SortedSet String =>
          ∀ member, member ∈ grown → holds member) _ _ before ?_
        intro known all name listed member joined
        rcases mem_join.mp joined with ⟨rfl, _, admitted⟩ | already
        · exact step member known listed all admitted
        · exact all member already
      rw [grownWithin]
      split
      · exact before
      · exact induction after

theorem closed_grown {name : String} (member : name ∈ grammar.nonTerminals)
    (admitted : admits (grammar.alternatives name) (grammar.grown admits) = true) :
    name ∈ grammar.grown admits :=
  closed_grownWithin (fun _ none => absurd none SortedSet.not_mem_empty) (Nat.le_add_left _ _)
    member admitted

theorem grown_sound (holds : String → Prop)
    (step : ∀ name known, name ∈ grammar.nonTerminals → (∀ member, member ∈ known → holds member) →
      admits (grammar.alternatives name) known = true → holds name) :
    ∀ member, member ∈ grammar.grown admits → holds member :=
  grownWithin_sound step fun _ none => absurd none SortedSet.not_mem_empty

/-! ## Nullable non-terminals -/

section Empty

variable {meaning : String → List String → Prop} {tokens : List Token}

theorem spells_nil_iff : Spells meaning tokens [] ↔
    ∀ token, token ∈ tokens → token = .empty ∨ ∃ name, token = .nonTerminal name ∧
      meaning name [] := by
  induction tokens with
  | nil => simp [Spells]
  | cons token rest induction =>
      rw [List.forall_mem_cons, ← induction]
      cases token with
      | empty => simp [Spells]
      | terminal name => simp [Spells]
      | nonTerminal name =>
          simp only [Spells, List.nil_eq_append_iff, reduceCtorEq, false_or,
            Token.nonTerminal.injEq, exists_eq_left']
          constructor
          · intro found
            rcases found with ⟨_, _, ⟨rfl, rfl⟩, both⟩
            exact both
          · exact fun both => ⟨[], [], ⟨rfl, rfl⟩, both⟩

theorem derivesEmpty_iff {nullable : SortedSet String} :
    derivesEmpty nullable tokens = true ↔ Spells (fun name _ => name ∈ nullable) tokens [] := by
  rw [spells_nil_iff, derivesEmpty, List.all_eq_true]
  refine forall_congr' fun token => imp_congr_right fun _ => ?_
  cases token <;> simp

theorem eq_nil_of_spells {word : List String} (spells : Spells meaning tokens word)
    (silent : ∀ token, token ∈ tokens → token = .empty ∨ ∃ name, token = .nonTerminal name ∧
      ∀ word, meaning name word → word = []) : word = [] := by
  induction tokens generalizing word with
  | nil => exact spells
  | cons token rest induction =>
      rcases List.forall_mem_cons.mp silent with ⟨rfl | ⟨name, rfl, only⟩, later⟩
      · exact induction spells later
      · rcases spells with ⟨first, tail, rfl, means, spells⟩
        rw [only first means, induction spells later]
        rfl

end Empty

theorem WellFormed.mem_nullable_iff (wellFormed : grammar.WellFormed) {name : String} :
    name ∈ grammar.nullableNonTerminals ↔ grammar.Derives name [] := by
  constructor
  · refine grown_sound (fun name => grammar.Derives name []) ?_ name
    intro name known _ all admitted
    rcases List.any_eq_true.mp admitted with ⟨alternative, member, silent⟩
    refine ⟨alternative, member, yields_of_spells (spells_nil_iff.mpr fun token inside => ?_)⟩
    rcases spells_nil_iff.mp (derivesEmpty_iff.mp silent) token inside with
      empty | ⟨other, same, joined⟩
    · exact .inl empty
    · exact .inr ⟨other, same, all other joined⟩
  · intro derives
    refine derives.means (fun name word => word = [] → name ∈ grammar.nullableNonTerminals) ?_ rfl
    intro name alternative word member spells same
    cases same
    apply closed_grown (wellFormed.head_declared member)
    refine List.any_eq_true.mpr ⟨alternative, member, derivesEmpty_iff.mpr ?_⟩
    apply spells_nil_iff.mpr
    intro token inside
    rcases spells_nil_iff.mp spells token inside with empty | ⟨other, same, nullable⟩
    · exact .inl empty
    · exact .inr ⟨other, same, nullable rfl⟩

/-! ## Null non-terminals -/

theorem mem_shrunk {null : SortedSet String} {name : String} :
    name ∈ grammar.shrunk null ↔ name ∈ null ∧
      ∀ alternative, alternative ∈ grammar.alternatives name →
        derivesEmpty null alternative = true := by
  rw [shrunk, SortedSet.mem_filter, List.all_eq_true]

theorem shrunk_eq_of_size_eq {null : SortedSet String}
    (same : (grammar.shrunk null).size = null.size) : grammar.shrunk null = null := by
  refine SortedSet.ext fun name => ⟨fun kept => (mem_shrunk.mp kept).1, fun member => ?_⟩
  apply Classical.byContradiction
  intro dropped
  have smaller := SortedSet.size_lt_length (fun other kept => (mem_shrunk.mp kept).1) member dropped
  rw [← SortedSet.size, same] at smaller
  exact Nat.lt_irrefl _ smaller

/-- Enough passes are made: each one drops a member or finds nothing to drop. -/
theorem shrunk_shrunkWithin {passes : Nat} {null : SortedSet String}
    (enough : null.size ≤ passes) :
    grammar.shrunk (grammar.shrunkWithin passes null) = grammar.shrunkWithin passes null := by
  induction passes generalizing null with
  | zero =>
      have none : null = ∅ := SortedSet.eq_empty fun name member =>
        absurd (List.length_pos_of_mem member) (Nat.not_lt.mpr enough)
      rw [shrunkWithin, none]
      exact SortedSet.eq_empty fun name kept => SortedSet.not_mem_empty (mem_shrunk.mp kept).1
  | succ passes induction =>
      rw [shrunkWithin]
      split
      case isTrue same => exact shrunk_eq_of_size_eq same
      case isFalse different =>
        apply induction
        have smaller : (grammar.shrunk null).size ≤ null.size :=
          SortedSet.size_le_length fun name kept => (mem_shrunk.mp kept).1
        omega

theorem mem_of_mem_shrunkWithin {passes : Nat} {null : SortedSet String} {name : String}
    (member : name ∈ grammar.shrunkWithin passes null) : name ∈ null := by
  induction passes generalizing null with
  | zero => exact member
  | succ passes induction =>
      rw [shrunkWithin] at member
      split at member
      · exact member
      · exact (mem_shrunk.mp (induction member)).1

/-- What is dropped has an alternative that leads out of every closed set. -/
theorem mem_shrunkWithin {passes : Nat} {null : SortedSet String} {holds : String → Prop}
    (closed : ∀ name, holds name → ∀ alternative, alternative ∈ grammar.alternatives name →
      Spells (fun name _ => holds name) alternative [])
    (inside : ∀ name, holds name → name ∈ null) {name : String} (member : holds name) :
    name ∈ grammar.shrunkWithin passes null := by
  induction passes generalizing null with
  | zero => exact inside name member
  | succ passes induction =>
      rw [shrunkWithin]
      split
      · exact inside name member
      · refine induction fun name member => mem_shrunk.mpr ⟨inside name member, ?_⟩
        intro alternative belongs
        refine derivesEmpty_iff.mpr (Spells.mono ?_ (closed name member alternative belongs))
        exact fun other _ _ => inside other

theorem mem_nullable_of_mem_null {name : String} (member : name ∈ grammar.nullNonTerminals) :
    name ∈ grammar.nullableNonTerminals := mem_of_mem_shrunkWithin member

theorem derivesEmpty_of_mem_null {name : String} (member : name ∈ grammar.nullNonTerminals)
    {alternative : Alternative} (belongs : alternative ∈ grammar.alternatives name) :
    derivesEmpty grammar.nullNonTerminals alternative = true := by
  have fixed : grammar.shrunk grammar.nullNonTerminals = grammar.nullNonTerminals :=
    shrunk_shrunkWithin (Nat.le_refl _)
  exact (mem_shrunk.mp (fixed.symm ▸ member)).2 alternative belongs

theorem mem_null (holds : String → Prop)
    (closed : ∀ name, holds name → ∀ alternative, alternative ∈ grammar.alternatives name →
      Spells (fun name _ => holds name) alternative [])
    (nullable : ∀ name, holds name → name ∈ grammar.nullableNonTerminals) {name : String}
    (member : holds name) : name ∈ grammar.nullNonTerminals :=
  mem_shrunkWithin closed nullable member

/-- A null non-terminal derives nothing but the empty sequence. -/
theorem eq_nil_of_mem_null {name : String} {word : List String}
    (member : name ∈ grammar.nullNonTerminals) (derives : grammar.Derives name word) :
    word = [] := by
  refine derives.means (fun name word => name ∈ grammar.nullNonTerminals → word = []) ?_ member
  intro name alternative word belongs spells member
  have silent := spells_nil_iff.mp (derivesEmpty_iff.mp (derivesEmpty_of_mem_null member belongs))
  refine eq_nil_of_spells spells fun token inside => (silent token inside).imp_right ?_
  intro found
  rcases found with ⟨other, same, null⟩
  exact ⟨other, same, fun _ only => only null⟩

end FormalLanguages.Grammar
