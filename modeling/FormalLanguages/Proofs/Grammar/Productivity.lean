import FormalLanguages.Proofs.Grammar.FixedPoints

namespace FormalLanguages.Grammar

/-! # What non-terminals derive at all

A list of tokens yields something if each of its non-terminals does, so the generating
non-terminals are those that derive a sequence of terminals. Where all of them do, every part of
an alternative shows in some word that is derived, so what derives nothing but the empty sequence
is called null. -/

variable {grammar : Grammar} {tokens : List Token} {name : String}

/-! ## Generating non-terminals -/

theorem exists_spells_cons_iff {meaning : String → List String → Prop} {token : Token} :
    (∃ word, Spells meaning (token :: tokens) word) ↔
      (∃ first, Spells meaning [token] first) ∧ ∃ rest, Spells meaning tokens rest := by
  constructor
  · rintro ⟨word, spells⟩
    rcases spells_cons_iff.mp spells with ⟨first, rest, _, one, later⟩
    exact ⟨⟨first, one⟩, rest, later⟩
  · rintro ⟨⟨first, one⟩, rest, later⟩
    exact ⟨first ++ rest, spells_cons_iff.mpr ⟨first, rest, rfl, one, later⟩⟩

/-- Terminals never stand in the way of a word. -/
theorem exists_spells_iff {meaning : String → List String → Prop} :
    (∃ word, Spells meaning tokens word) ↔
      ∀ name, .nonTerminal name ∈ tokens → ∃ word, meaning name word := by
  induction tokens with
  | nil => simp [Spells]
  | cons token rest induction =>
      rw [exists_spells_cons_iff, induction]
      cases token with
      | empty => simp [Spells]
      | terminal name => simp [Spells]
      | nonTerminal name => simp [spells_singleton_iff, or_imp, forall_and]

theorem derivesSomething_iff {generating : SortedSet String} :
    derivesSomething generating tokens = true ↔
      ∀ name, .nonTerminal name ∈ tokens → name ∈ generating := by
  rw [derivesSomething, List.all_eq_true]
  constructor
  · exact fun all name member => of_decide_eq_true (all _ member)
  · intro all token member
    cases token with
    | nonTerminal name => exact decide_eq_true (all name member)
    | terminal _ => rfl
    | empty => rfl

theorem exists_yields_iff : (∃ word, grammar.Yields tokens word) ↔
    ∀ name, .nonTerminal name ∈ tokens → ∃ word, grammar.Derives name word := by
  rw [← exists_spells_iff]
  exact exists_congr fun word => yields_iff_spells

theorem WellFormed.mem_generatingNonTerminals_iff (wellFormed : grammar.WellFormed) :
    name ∈ grammar.generatingNonTerminals ↔ ∃ word, grammar.Derives name word := by
  constructor
  · refine grown_sound (fun name => ∃ word, grammar.Derives name word) ?_ name
    intro name known _ all admitted
    rcases List.any_eq_true.mp admitted with ⟨alternative, member, something⟩
    have parts := fun name inside => all name (derivesSomething_iff.mp something name inside)
    exact (exists_yields_iff.mpr parts).imp fun _ yields => ⟨alternative, member, yields⟩
  · rintro ⟨word, derives⟩
    refine derives.means (fun name _ => name ∈ grammar.generatingNonTerminals) ?_
    intro name alternative word member spells
    apply closed_grown (wellFormed.head_declared member)
    refine List.any_eq_true.mpr ⟨alternative, member, derivesSomething_iff.mpr ?_⟩
    intro part inside
    rcases exists_spells_iff.mp ⟨word, spells⟩ part inside with ⟨_, joined⟩
    exact joined

theorem mem_generatingSymbols_iff : .nonTerminal name ∈ grammar.generatingSymbols ↔
    name ∈ grammar.generatingNonTerminals := by
  simp [generatingSymbols]

/-! ## Null non-terminals -/

/-- What a part yields shows in what the whole yields, if all the other parts yield something. -/
theorem eq_nil_of_yields_nil
    (productive : ∀ name, .nonTerminal name ∈ tokens → ∃ word, grammar.Derives name word)
    (silent : ∀ word, grammar.Yields tokens word → word = []) {token : Token}
    (member : token ∈ tokens) {part : List String} (yields : grammar.Yields [token] part) :
    part = [] := by
  rcases List.append_of_mem member with ⟨before, after, rfl⟩
  rcases exists_yields_iff.mpr fun name inside =>
    productive name (List.mem_append_left _ inside) with ⟨left, first⟩
  rcases exists_yields_iff.mpr fun name inside =>
    productive name (List.mem_append_right _ (List.mem_cons_of_mem _ inside)) with ⟨right, last⟩
  have whole : grammar.Yields (before ++ ([token] ++ after)) (left ++ (part ++ right)) :=
    first.append (yields.append last)
  exact (List.append_eq_nil_iff.mp (List.append_eq_nil_iff.mp (silent _ whole)).2).1

/-- Deriving the empty sequence and nothing else. -/
def Silent (grammar : Grammar) (name : String) : Prop :=
  ∀ word, grammar.Derives name word ↔ word = []

theorem Silent.alternative (silent : grammar.Silent name) {alternative : Alternative}
    (member : alternative ∈ grammar.alternatives name)
    (productive : ∀ name, .nonTerminal name ∈ alternative → ∃ word, grammar.Derives name word) :
    Spells (fun name _ => grammar.Silent name) alternative [] := by
  have nothing (word : List String) (yields : grammar.Yields alternative word) : word = [] :=
    (silent word).mp ⟨alternative, member, yields⟩
  refine spells_nil_iff.mpr fun token inside => ?_
  cases token with
  | empty => exact .inl rfl
  | terminal symbol =>
      have shows := eq_nil_of_yields_nil productive nothing inside (.terminal symbol .done)
      exact absurd shows (List.cons_ne_nil _ _)
  | nonTerminal part =>
      refine .inr ⟨part, rfl, fun word => ?_⟩
      have only (word : List String) (derives : grammar.Derives part word) : word = [] :=
        eq_nil_of_yields_nil productive nothing inside (yields_singleton_iff.mpr derives)
      refine ⟨only word, ?_⟩
      rintro rfl
      rcases productive part inside with ⟨some, derives⟩
      exact only some derives ▸ derives

theorem WellFormed.silent_of_mem_null (wellFormed : grammar.WellFormed)
    (member : name ∈ grammar.nullNonTerminals) : grammar.Silent name := by
  refine fun word => ⟨eq_nil_of_mem_null member, ?_⟩
  rintro rfl
  exact wellFormed.mem_nullable_iff.mp (mem_nullable_of_mem_null member)

theorem WellFormed.mem_null_of_silent (wellFormed : grammar.WellFormed)
    (productive : ∀ name, name ∈ grammar.nonTerminals → ∃ word, grammar.Derives name word)
    (silent : grammar.Silent name) : name ∈ grammar.nullNonTerminals := by
  refine mem_null grammar.Silent (fun name silent alternative member => ?_) (fun name silent => ?_)
    silent
  · exact silent.alternative member fun part inside =>
      productive part (wellFormed.token_declared member inside)
  · exact wellFormed.mem_nullable_iff.mpr ((silent []).mpr rfl)

/-- The fixed points hold what derivations say: the nullable non-terminals derive the empty
sequence, the generating ones derive some sequence, and the null ones derive the empty sequence
and no other. No such non-terminal is missed if all of them are generating. -/
theorem fixed_points_exact (grammar : Grammar) (wellFormed : grammar.WellFormed) :
    (∀ name, name ∈ grammar.nullableNonTerminals ↔ grammar.Derives name []) ∧
    (∀ name, .nonTerminal name ∈ grammar.generatingSymbols ↔
      ∃ word, grammar.Derives name word) ∧
    (∀ name, name ∈ grammar.nullNonTerminals → ∀ word, grammar.Derives name word ↔ word = []) ∧
    ((∀ name, name ∈ grammar.nonTerminals → .nonTerminal name ∈ grammar.generatingSymbols) →
      ∀ name, (∀ word, grammar.Derives name word ↔ word = []) →
        name ∈ grammar.nullNonTerminals) := by
  have generating (name : String) : .nonTerminal name ∈ grammar.generatingSymbols ↔
      ∃ word, grammar.Derives name word :=
    mem_generatingSymbols_iff.trans wellFormed.mem_generatingNonTerminals_iff
  refine ⟨fun name => wellFormed.mem_nullable_iff, generating,
    fun name => wellFormed.silent_of_mem_null, fun all name => ?_⟩
  exact wellFormed.mem_null_of_silent fun other declared =>
    (generating other).mp (all other declared)

/-- The null non-terminals `N` and `M` call each other, and one has an alternative of no tokens. -/
def silentCycle : Grammar where
  nonTerminals := DeclaredSet.ofList ["S", "N", "M"]
  terminals := DeclaredSet.ofList ["a"]
  productions := DeclaredMap.ofList
    [("S", [[.nonTerminal "N", .terminal "a", .nonTerminal "S"], [.nonTerminal "M"]]),
      ("N", [[.nonTerminal "M", .nonTerminal "N"], [.empty]]),
      ("M", [[.nonTerminal "N", .nonTerminal "M"], []])]
  start := some "S"

theorem fixed_points_silentCycle :
    silentCycle.WellFormed ∧
      (∀ name, name ∈ silentCycle.nonTerminals →
        .nonTerminal name ∈ silentCycle.generatingSymbols) ∧
      (∀ name, name ∈ silentCycle.nullableNonTerminals ↔ silentCycle.Derives name []) ∧
      (∀ name, .nonTerminal name ∈ silentCycle.generatingSymbols ↔
        ∃ word, silentCycle.Derives name word) ∧
      (∀ name, name ∈ silentCycle.nullNonTerminals ↔
        ∀ word, silentCycle.Derives name word ↔ word = []) ∧
      silentCycle.nullNonTerminals.toList = ["M", "N"] := by
  have wellFormed : silentCycle.WellFormed := fault?_eq_none_iff.mp (by decide)
  have all : ∀ name, name ∈ silentCycle.nonTerminals.toList →
      .nonTerminal name ∈ silentCycle.generatingSymbols := by decide
  rcases fixed_points_exact silentCycle wellFormed with ⟨nullable, generating, null, missed⟩
  exact ⟨wellFormed, all, nullable, generating, fun name => ⟨null name, missed all name⟩, by decide⟩

/-- `A → ε | AB`, `B → B`: what keeps `A` from being called null derives nothing. -/
def unproductive : Grammar where
  nonTerminals := DeclaredSet.ofList ["A", "B"]
  terminals := ∅
  productions := DeclaredMap.ofList
    [("A", [[.empty], [.nonTerminal "A", .nonTerminal "B"]]), ("B", [[.nonTerminal "B"]])]
  start := some "A"

example : unproductive.nullableNonTerminals.toList = ["A"] ∧
    unproductive.generatingNonTerminals.toList = ["A"] ∧ unproductive.nullNonTerminals = ∅ := by
  decide

end FormalLanguages.Grammar
