import FormalLanguages.Grammar.Derivation

namespace FormalLanguages.Grammar

/-! # Meanings of non-terminals

Tokens can be read under any meaning of the non-terminals, not only under what they
derive. What they derive is the least meaning that the productions allow, so a
property of all derived words is shown by one look at each alternative. -/

variable {grammar other : Grammar}

/-! ## Alternatives -/

theorem mem_alternatives_iff {head : String} {alternative : Alternative} :
    alternative ∈ grammar.alternatives head ↔
      ∃ alternatives, grammar.productions.get? head = some alternatives ∧
        alternative ∈ alternatives := by
  rw [alternatives]
  cases grammar.productions.get? head <;> simp

theorem mem_heads_iff {head : String} :
    head ∈ grammar.productions ↔ ∃ alternatives,
      grammar.productions.get? head = some alternatives := by
  rw [DeclaredMap.get?, ← Option.isSome_iff_exists, Entries.isSome_lookup]
  rfl

theorem mem_productions_of_mem {head : String} {alternative : Alternative}
    (member : alternative ∈ grammar.alternatives head) : head ∈ grammar.productions := by
  rcases mem_alternatives_iff.mp member with ⟨alternatives, found, _⟩
  exact mem_heads_iff.mpr ⟨alternatives, found⟩

theorem alternatives_eq_nil {head : String} (foreign : ¬ head ∈ grammar.productions) :
    grammar.alternatives head = [] :=
  List.eq_nil_iff_forall_not_mem.mpr fun _ member => foreign (mem_productions_of_mem member)

theorem WellFormed.head_declared (wellFormed : grammar.WellFormed) {head : String}
    {alternative : Alternative} (member : alternative ∈ grammar.alternatives head) :
    head ∈ grammar.nonTerminals :=
  wellFormed.heads head (mem_productions_of_mem member)

theorem WellFormed.token_declared (wellFormed : grammar.WellFormed) {head : String}
    {alternative : Alternative} (member : alternative ∈ grammar.alternatives head)
    {token : Token} (inside : token ∈ alternative) : grammar.Declares token := by
  rcases mem_alternatives_iff.mp member with ⟨alternatives, found, member⟩
  exact wellFormed.tokens head alternatives found alternative member token inside

theorem WellFormed.of_alternatives
    (heads : ∀ head, head ∈ grammar.productions → head ∈ grammar.nonTerminals)
    (tokens : ∀ head alternative, alternative ∈ grammar.alternatives head →
      ∀ token, token ∈ alternative → grammar.Declares token)
    (start : ∀ start, grammar.start = some start → start ∈ grammar.nonTerminals) :
    grammar.WellFormed where
  heads := heads
  tokens head alternatives found alternative member :=
    tokens head alternative (mem_alternatives_iff.mpr ⟨alternatives, found, member⟩)
  start := start

/-! ## Reading tokens -/

def Spells (meaning : String → List String → Prop) : List Token → List String → Prop
  | [], word => word = []
  | .empty :: rest, word => Spells meaning rest word
  | .terminal name :: rest, word => ∃ tail, word = name :: tail ∧ Spells meaning rest tail
  | .nonTerminal name :: rest, word =>
      ∃ first tail, word = first ++ tail ∧ meaning name first ∧ Spells meaning rest tail

section Spells

variable {meaning wider : String → List String → Prop} {tokens : List Token} {word : List String}

theorem Spells.mono
    (below : ∀ name, .nonTerminal name ∈ tokens → ∀ word, meaning name word → wider name word)
    (spells : Spells meaning tokens word) : Spells wider tokens word := by
  induction tokens generalizing word with
  | nil => exact spells
  | cons token rest induction =>
      have later : ∀ name, .nonTerminal name ∈ rest → ∀ word, meaning name word →
          wider name word := fun name member => below name (List.mem_cons_of_mem _ member)
      cases token with
      | empty => exact induction later spells
      | terminal name =>
          rcases spells with ⟨tail, same, spells⟩
          exact ⟨tail, same, induction later spells⟩
      | nonTerminal name =>
          rcases spells with ⟨first, tail, same, means, spells⟩
          exact ⟨first, tail, same, below name List.mem_cons_self first means,
            induction later spells⟩

theorem spells_cons_iff {token : Token} {rest : List Token} :
    Spells meaning (token :: rest) word ↔
      ∃ first tail, word = first ++ tail ∧ Spells meaning [token] first ∧
        Spells meaning rest tail := by
  constructor
  · intro spells
    cases token with
    | empty => exact ⟨[], word, rfl, rfl, spells⟩
    | terminal name =>
        rcases spells with ⟨tail, rfl, spells⟩
        exact ⟨[name], tail, rfl, ⟨[], rfl, rfl⟩, spells⟩
    | nonTerminal name =>
        rcases spells with ⟨first, tail, rfl, means, spells⟩
        exact ⟨first, tail, rfl, ⟨first, [], (List.append_nil first).symm, means, rfl⟩, spells⟩
  · intro found
    rcases found with ⟨first, tail, rfl, one, spells⟩
    cases token with
    | empty =>
        cases one
        exact spells
    | terminal name =>
        rcases one with ⟨_, rfl, rfl⟩
        exact ⟨tail, rfl, spells⟩
    | nonTerminal name =>
        rcases one with ⟨part, _, rfl, means, rfl⟩
        exact ⟨part, tail, by rw [List.append_nil], means, spells⟩

theorem spells_singleton_iff {name : String} :
    Spells meaning [.nonTerminal name] word ↔ meaning name word := by simp [Spells]

theorem spells_of_yields (yields : grammar.Yields tokens word)
    (closed : ∀ name alternative word, alternative ∈ grammar.alternatives name →
      Spells meaning alternative word → meaning name word) : Spells meaning tokens word := by
  induction yields with
  | done => rfl
  | empty _ induction => exact induction
  | terminal name _ induction => exact ⟨_, rfl, induction⟩
  | nonTerminal member _ _ means induction =>
      exact ⟨_, _, rfl, closed _ _ _ member means, induction⟩

theorem yields_of_spells (spells : Spells grammar.Derives tokens word) :
    grammar.Yields tokens word := by
  induction tokens generalizing word with
  | nil => exact spells ▸ .done
  | cons token rest induction =>
      cases token with
      | empty => exact .empty (induction spells)
      | terminal name =>
          rcases spells with ⟨tail, rfl, spells⟩
          exact .terminal name (induction spells)
      | nonTerminal name =>
          rcases spells with ⟨first, tail, rfl, ⟨alternative, member, yields⟩, spells⟩
          exact .nonTerminal member yields (induction spells)

theorem yields_iff_spells : grammar.Yields tokens word ↔ Spells grammar.Derives tokens word :=
  ⟨fun yields => spells_of_yields yields fun _ alternative _ member spells =>
    ⟨alternative, member, yields_of_spells spells⟩, yields_of_spells⟩

/-- What a non-terminal derives it also means, if its meaning allows every alternative. -/
theorem Derives.means {name : String} (derives : grammar.Derives name word)
    (meaning : String → List String → Prop)
    (closed : ∀ name alternative word, alternative ∈ grammar.alternatives name →
      Spells meaning alternative word → meaning name word) : meaning name word := by
  rcases derives with ⟨alternative, member, yields⟩
  exact closed name alternative word member (spells_of_yields yields closed)

/-- What the parts of a word mean may be shown together with their being derived. -/
theorem Derives.means_of_derived {name : String} (derives : grammar.Derives name word)
    (meaning : String → List String → Prop)
    (closed : ∀ name alternative word, alternative ∈ grammar.alternatives name →
      grammar.Derives name word →
      Spells (fun name word => grammar.Derives name word ∧ meaning name word) alternative word →
      meaning name word) : meaning name word := by
  refine (derives.means (fun name word => grammar.Derives name word ∧ meaning name word) ?_).2
  intro name alternative word member spells
  have own : grammar.Derives name word :=
    ⟨alternative, member, yields_of_spells (spells.mono fun _ _ _ both => both.1)⟩
  exact ⟨own, closed name alternative word member own spells⟩

end Spells

/-- One grammar derives all that another derives if it does so for every alternative. -/
theorem Derives.transfer {name : String} {word : List String} (derives : grammar.Derives name word)
    (closed : ∀ name alternative word, alternative ∈ grammar.alternatives name →
      other.Yields alternative word → other.Derives name word) : other.Derives name word :=
  derives.means other.Derives fun name alternative word member spells =>
    closed name alternative word member (yields_of_spells spells)

/-! ## Derivations without empty parts -/

/-- Tokens build a word if they yield it and no part of the derivation is empty. -/
inductive Builds (grammar : Grammar) : List Token → List String → Prop
  | done : Builds grammar [] []
  | terminal {rest : List Token} {word : List String} (name : String)
      (tail : Builds grammar rest word) : Builds grammar (.terminal name :: rest) (name :: word)
  | nonTerminal {rest : List Token} {word first : List String} {name : String}
      {alternative : Alternative} (member : alternative ∈ grammar.alternatives name)
      (head : Builds grammar alternative first) (nonempty : first ≠ [])
      (tail : Builds grammar rest word) : Builds grammar (.nonTerminal name :: rest) (first ++ word)

def Forms (grammar : Grammar) (nonTerminal : String) (word : List String) : Prop :=
  word ≠ [] ∧ ∃ alternative, alternative ∈ grammar.alternatives nonTerminal ∧
    grammar.Builds alternative word

section Builds

variable {tokens rest : List Token} {word : List String} {name : String}

theorem builds_nil_iff : grammar.Builds [] word ↔ word = [] := by
  constructor
  · intro builds
    cases builds
    rfl
  · intro same
    cases same
    exact .done

theorem not_builds_empty : ¬ grammar.Builds (.empty :: rest) word := by
  intro builds
  cases builds

theorem builds_terminal_cons_iff : grammar.Builds (.terminal name :: rest) word ↔
    ∃ tail, word = name :: tail ∧ grammar.Builds rest tail := by
  constructor
  · intro builds
    cases builds with
    | terminal _ tail => exact ⟨_, rfl, tail⟩
  · intro found
    rcases found with ⟨tail, rfl, builds⟩
    exact .terminal name builds

theorem builds_nonTerminal_cons_iff : grammar.Builds (.nonTerminal name :: rest) word ↔
    ∃ first tail, word = first ++ tail ∧ grammar.Forms name first ∧ grammar.Builds rest tail := by
  constructor
  · intro builds
    cases builds with
    | nonTerminal member head nonempty tail =>
        exact ⟨_, _, rfl, ⟨nonempty, _, member, head⟩, tail⟩
  · intro found
    rcases found with ⟨first, tail, rfl, ⟨nonempty, alternative, member, head⟩, builds⟩
    exact .nonTerminal member head nonempty builds

theorem builds_singleton_iff :
    grammar.Builds [.nonTerminal name] word ↔ grammar.Forms name word := by
  rw [builds_nonTerminal_cons_iff]
  simp only [builds_nil_iff]
  constructor
  · intro found
    rcases found with ⟨first, tail, rfl, forms, rfl⟩
    rwa [List.append_nil]
  · exact fun forms => ⟨word, [], (List.append_nil word).symm, forms, rfl⟩

theorem builds_iff_spells :
    grammar.Builds tokens word ↔ .empty ∉ tokens ∧ Spells grammar.Forms tokens word := by
  induction tokens generalizing word with
  | nil => simp [builds_nil_iff, Spells]
  | cons token rest induction =>
      cases token with
      | empty => exact iff_of_false not_builds_empty fun both => both.1 List.mem_cons_self
      | terminal name =>
          simp only [builds_terminal_cons_iff, Spells, induction, List.mem_cons, reduceCtorEq,
            false_or]
          exact ⟨fun ⟨tail, same, solid, spells⟩ => ⟨solid, tail, same, spells⟩,
            fun ⟨solid, tail, same, spells⟩ => ⟨tail, same, solid, spells⟩⟩
      | nonTerminal name =>
          simp only [builds_nonTerminal_cons_iff, Spells, induction, List.mem_cons, reduceCtorEq,
            false_or]
          exact ⟨fun ⟨first, tail, same, forms, solid, spells⟩ =>
              ⟨solid, first, tail, same, forms, spells⟩,
            fun ⟨solid, first, tail, same, forms, spells⟩ =>
              ⟨first, tail, same, forms, solid, spells⟩⟩

theorem Builds.yields (builds : grammar.Builds tokens word) : grammar.Yields tokens word := by
  induction builds with
  | done => exact .done
  | terminal name _ induction => exact .terminal name induction
  | nonTerminal member _ _ _ head tail => exact .nonTerminal member head tail

theorem Forms.derives (forms : grammar.Forms name word) : grammar.Derives name word :=
  ⟨forms.2.choose, forms.2.choose_spec.1, forms.2.choose_spec.2.yields⟩

theorem Builds.transfer (builds : grammar.Builds tokens word)
    (closed : ∀ name alternative word, alternative ∈ grammar.alternatives name → word ≠ [] →
      other.Builds alternative word → other.Forms name word) : other.Builds tokens word := by
  induction builds with
  | done => exact .done
  | terminal name _ induction => exact .terminal name induction
  | nonTerminal member _ nonempty _ head tail =>
      exact builds_nonTerminal_cons_iff.mpr
        ⟨_, _, rfl, closed _ _ _ member nonempty head, tail⟩

theorem Forms.transfer (forms : grammar.Forms name word)
    (closed : ∀ name alternative word, alternative ∈ grammar.alternatives name → word ≠ [] →
      other.Builds alternative word → other.Forms name word) : other.Forms name word :=
  builds_singleton_iff.mp ((builds_singleton_iff.mpr forms).transfer closed)

end Builds

end FormalLanguages.Grammar
