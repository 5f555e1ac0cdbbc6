import FormalLanguages.Grammar.NormalForm.Binary
import FormalLanguages.Proofs.Grammar.FixedPoints
import FormalLanguages.Proofs.Grammar.Passes
import FormalLanguages.Proofs.Name.Freshness

namespace FormalLanguages.Grammar

/-! # Splitting long alternatives keeps the language

A long alternative hangs below a chain of new non-terminals. Each of them has one
alternative, which holds the tokens from some position on. -/

variable {given grammar later : Grammar}

namespace Binary

/-! ## Chains -/

def Introduced (given grammar : Grammar) (name : String) : Prop :=
  name ∈ grammar.nonTerminals ∧ ¬ name ∈ given.nonTerminals

inductive Splits (given grammar : Grammar) : List Token → Alternative → Prop
  | short {tokens : List Token} (bounded : tokens.length ≤ 2) : Splits given grammar tokens tokens
  | long {first : Token} {rest : List Token} {next : String} {part : Alternative}
      (new : Introduced given grammar next) (only : grammar.alternatives next = [part])
      (later : Splits given grammar rest part) :
      Splits given grammar (first :: rest) [first, .nonTerminal next]

def Hangs (given grammar : Grammar) (name : String) (tokens : List Token) : Prop :=
  Introduced given grammar name ∧
    ∃ part, grammar.alternatives name = [part] ∧ Splits given grammar tokens part

/-- The new non-terminals of a grammar keep their alternatives. -/
def Keeps (given grammar later : Grammar) : Prop :=
  ∀ name, Introduced given grammar name →
    Introduced given later name ∧ later.alternatives name = grammar.alternatives name

theorem Splits.keep {tokens : List Token} {part : Alternative} (keeps : Keeps given grammar later)
    (splits : Splits given grammar tokens part) : Splits given later tokens part := by
  induction splits with
  | short bounded => exact .short bounded
  | long new only _ induction =>
      exact .long (keeps _ new).1 ((keeps _ new).2.trans only) induction

theorem represents_keep {originals parts : List Alternative} (keeps : Keeps given grammar later)
    (represents : List.Forall₂ (Splits given grammar) originals parts) :
    List.Forall₂ (Splits given later) originals parts :=
  represents.imp fun _ _ splits => splits.keep keeps

theorem Hangs.keep {name : String} {tokens : List Token} (keeps : Keeps given grammar later)
    (hangs : Hangs given grammar name tokens) : Hangs given later name tokens := by
  rcases hangs with ⟨new, part, only, splits⟩
  exact ⟨(keeps name new).1, part, (keeps name new).2.trans only, splits.keep keeps⟩

theorem Hangs.splits {first : Token} {rest : List Token} {next : String}
    (hangs : Hangs given grammar next rest) :
    Splits given grammar (first :: rest) [first, .nonTerminal next] := by
  rcases hangs with ⟨new, part, only, splits⟩
  exact .long new only splits

theorem Splits.length_le {tokens : List Token} {part : Alternative}
    (splits : Splits given grammar tokens part) : part.length ≤ 2 := by
  cases splits with
  | short bounded => exact bounded
  | long => exact Nat.le_refl 2

theorem Splits.declares {tokens : List Token} {part : Alternative}
    (splits : Splits given grammar tokens part)
    (declared : ∀ token, token ∈ tokens → grammar.Declares token) :
    ∀ token, token ∈ part → grammar.Declares token := by
  cases splits with
  | short => exact declared
  | long new =>
      refine List.forall_mem_cons.mpr ⟨declared _ List.mem_cons_self, ?_⟩
      exact List.forall_mem_singleton.mpr new.1

theorem keeps_of_extends {changed : List String} (grows : Extends grammar changed later)
    (old : ∀ name, name ∈ changed → ¬ Introduced given grammar name) :
    Keeps given grammar later := fun name new =>
  ⟨⟨grows.nonTerminals name new.1, new.2⟩,
    grows.alternatives name new.1 fun inside => old name inside new⟩

/-! ## Hanging up a chain -/

/-- What hanging tokens below a new non-terminal leads to. -/
structure Hung (given before : Grammar) (link : String) (tokens : List Token)
    (after : Grammar) : Prop where
  grows : Extends before [link] after
  hangs : Hangs given after link tokens
  introduced : ∀ name, name ∈ after.nonTerminals → name ∈ before.nonTerminals ∨
    ∃ rest, rest <:+ tokens ∧ Hangs given after name rest

theorem hung_short {link : String} {tokens : List Token} (new : Introduced given grammar link)
    (empty : grammar.alternatives link = []) (bounded : tokens.length ≤ 2) :
    Hung given grammar link tokens (grammar.addAlternative link tokens) where
  grows := .setAlternatives new.1
  hangs := by
    refine ⟨new, tokens, ?_, .short bounded⟩
    rw [alternatives_addAlternative, if_pos rfl, empty, List.nil_append]
  introduced _ := .inl

/-- The grammar in which a link has its first token and the rest is still to be hung. -/
def linked (grammar : Grammar) (link next : String) (first : Token) : Grammar :=
  (grammar.addNonTerminal next).addAlternative link [first, .nonTerminal next]

theorem extends_linked {link next : String} {first : Token}
    (declared : link ∈ grammar.nonTerminals) :
    Extends grammar [link] (linked grammar link next first) :=
  (Extends.addNonTerminal grammar next).trans
    (.setAlternatives (mem_addNonTerminal.mpr (.inr declared))) (by simp)

theorem Hung.link {after : Grammar} {link next : String} {first : Token} {rest : List Token}
    (new : Introduced given grammar link) (empty : grammar.alternatives link = [])
    (free : ¬ next ∈ grammar.nonTerminals)
    (hung : Hung given (linked grammar link next first) next rest after) :
    Hung given grammar link (first :: rest) after := by
  have differs : link ≠ next := fun same => free (same ▸ new.1)
  have grows : Extends grammar [link] (linked grammar link next first) := extends_linked new.1
  have kept := hung.grows.alternatives link (grows.nonTerminals link new.1)
    fun inside => differs (List.mem_singleton.mp inside)
  have only : after.alternatives link = [[first, .nonTerminal next]] := by
    rw [kept, linked, alternatives_addAlternative, if_pos rfl]
    change grammar.alternatives link ++ _ = _
    rw [empty, List.nil_append]
  have declared := hung.grows.nonTerminals link (grows.nonTerminals link new.1)
  refine ⟨grows.trans_new hung.grows free, ⟨⟨declared, new.2⟩, _, only, hung.hangs.splits⟩,
    fun name inside => ?_⟩
  rcases hung.introduced name inside with before | ⟨tail, part, hangs⟩
  · rcases mem_addNonTerminal.mp before with rfl | known
    · exact .inr ⟨rest, List.suffix_cons first rest, hung.hangs⟩
    · exact .inl known
  · exact .inr ⟨tail, part.trans (List.suffix_cons first rest), hangs⟩

theorem hung_chain {base link : String} {tokens : List Token}
    (new : Introduced given grammar link) (empty : grammar.alternatives link = [])
    (within : ∀ name, name ∈ given.nonTerminals → name ∈ grammar.nonTerminals)
    (declared : grammar.HeadsDeclared) :
    Hung given grammar link tokens (chain base link tokens grammar).1 := by
  induction tokens generalizing link grammar with
  | nil => exact hung_short new empty (Nat.zero_le 2)
  | cons first tokens induction =>
      match tokens with
      | [] => exact hung_short new empty (by simp)
      | [_] => exact hung_short new empty (by simp)
      | second :: third :: rest =>
          let next := Name.countUp base grammar.symbolNames
          have free : ¬ next ∈ grammar.nonTerminals :=
            not_mem_nonTerminals (Name.countUp_not_mem base grammar.symbolNames)
          have differs : link ≠ next := fun same => free (same ▸ new.1)
          have grows : Extends grammar [link] (linked grammar link next first) :=
            extends_linked new.1
          have newNext : Introduced given (linked grammar link next first) next :=
            ⟨mem_addNonTerminal.mpr (.inl rfl), fun known => free (within next known)⟩
          have emptyNext : (linked grammar link next first).alternatives next = [] := by
            rw [linked, alternatives_addAlternative, if_neg differs]
            exact declared.alternatives_eq_nil free
          exact .link new empty free (induction newNext emptyNext
            (fun name known => grows.nonTerminals name (within name known)) (grows.heads declared))

/-! ## The alternatives of one head -/

/-- What is known once some alternatives of a head are split. -/
structure SplitUpTo (given before : Grammar) (originals : List Alternative)
    (splitting : Splitting) : Prop where
  grows : Extends before [] splitting.grammar
  represents : List.Forall₂ (Splits given splitting.grammar) originals splitting.alternatives
  introduced : ∀ name, name ∈ splitting.grammar.nonTerminals → name ∈ before.nonTerminals ∨
    ∃ original rest, original ∈ originals ∧ rest <:+ original ∧
      Hangs given splitting.grammar name rest
  unchanged : splitting.introduced = [] →
    splitting.grammar = before ∧ splitting.alternatives = originals

theorem SplitUpTo.short {before : Grammar} {originals : List Alternative} {splitting : Splitting}
    (known : SplitUpTo given before originals splitting) {original : Alternative}
    (bounded : original.length ≤ 2) :
    SplitUpTo given before (originals ++ [original])
      { splitting with alternatives := splitting.alternatives ++ [original] } where
  grows := known.grows
  represents := forall₂_append known.represents (.short bounded)
  introduced name inside := by
    rcases known.introduced name inside with old | ⟨source, rest, member, part, hangs⟩
    · exact .inl old
    · exact .inr ⟨source, rest, List.mem_append_left _ member, part, hangs⟩
  unchanged none := by
    rcases known.unchanged none with ⟨same, alternatives⟩
    exact ⟨same, congrArg (· ++ [original]) alternatives⟩

theorem SplitUpTo.long {before after : Grammar} {originals : List Alternative}
    {splitting : Splitting} (known : SplitUpTo given before originals splitting) {next : String}
    {first : Token} {rest : List Token} (free : ¬ next ∈ splitting.grammar.nonTerminals)
    (hung : Hung given (splitting.grammar.addNonTerminal next) next rest after)
    {introduced : List String} (some : introduced ≠ []) :
    SplitUpTo given before (originals ++ [first :: rest])
      ⟨after, splitting.alternatives ++ [[first, .nonTerminal next]], introduced⟩ := by
  have grows : Extends splitting.grammar [] after :=
    (Extends.addNonTerminal splitting.grammar next).trans_new hung.grows free
  have keeps : Keeps given splitting.grammar after :=
    keeps_of_extends grows fun _ none => absurd none List.not_mem_nil
  have last : first :: rest ∈ originals ++ [first :: rest] :=
    List.mem_append_right _ (List.mem_singleton.mpr rfl)
  refine ⟨known.grows.trans grows (by simp),
    forall₂_append (represents_keep keeps known.represents) hung.hangs.splits,
    fun name inside => ?_, fun none => absurd none some⟩
  rcases hung.introduced name inside with joined | ⟨tail, part, hangs⟩
  · rcases mem_addNonTerminal.mp joined with rfl | joined
    · exact .inr ⟨_, rest, last, List.suffix_cons first rest, hung.hangs⟩
    · rcases known.introduced name joined with old | ⟨source, tail, member, part, hangs⟩
      · exact .inl old
      · exact .inr ⟨source, tail, List.mem_append_left _ member, part, hangs.keep keeps⟩
  · exact .inr ⟨_, tail, last, part.trans (List.suffix_cons first rest), hangs⟩

theorem SplitUpTo.next {head : String} {before : Grammar} {originals : List Alternative}
    {splitting : Splitting} (known : SplitUpTo given before originals splitting)
    (within : ∀ name, name ∈ given.nonTerminals → name ∈ before.nonTerminals)
    (declared : before.HeadsDeclared) (original : Alternative) :
    SplitUpTo given before (originals ++ [original]) (split head splitting original) := by
  match original with
  | [] => exact known.short (by decide)
  | [_] => exact known.short (by simp)
  | [_, _] => exact known.short (by simp)
  | first :: second :: third :: rest =>
      let next := Name.countUp head splitting.grammar.symbolNames
      have free : ¬ next ∈ splitting.grammar.nonTerminals :=
        not_mem_nonTerminals (Name.countUp_not_mem head splitting.grammar.symbolNames)
      have all : ∀ name, name ∈ given.nonTerminals → name ∈ splitting.grammar.nonTerminals :=
        fun name old => known.grows.nonTerminals name (within name old)
      have heads := known.grows.heads declared
      have joins := Extends.addNonTerminal splitting.grammar next
      have new : Introduced given (splitting.grammar.addNonTerminal next) next :=
        ⟨mem_addNonTerminal.mpr (.inl rfl), fun old => free (all next old)⟩
      have hung : Hung given (splitting.grammar.addNonTerminal next) next
          (second :: third :: rest)
          (chain head next (second :: third :: rest) (splitting.grammar.addNonTerminal next)).1 :=
        hung_chain new (heads.alternatives_eq_nil free)
          (fun name old => joins.nonTerminals name (all name old)) (joins.heads heads)
      exact known.long free hung (by simp)

theorem splitUpTo_foldl {head : String} {before : Grammar} {done : List Alternative}
    {splitting : Splitting} (known : SplitUpTo given before done splitting)
    (within : ∀ name, name ∈ given.nonTerminals → name ∈ before.nonTerminals)
    (declared : before.HeadsDeclared) (originals : List Alternative) :
    SplitUpTo given before (done ++ originals) (originals.foldl (split head) splitting) := by
  induction originals generalizing done splitting with
  | nil => rwa [List.append_nil]
  | cons original rest induction =>
      have later : SplitUpTo given before ((done ++ [original]) ++ rest)
          (rest.foldl (split head) (split head splitting original)) :=
        induction (known.next within declared original)
      rwa [List.append_assoc] at later

/-! ## All heads -/

/-- What is known once some heads are visited. -/
structure VisitedUpTo (given : Grammar) (visited : List String) (grammar : Grammar) : Prop where
  grows : Extends given visited grammar
  represents : ∀ head, head ∈ given.nonTerminals → head ∈ visited →
    List.Forall₂ (Splits given grammar) (given.alternatives head) (grammar.alternatives head)
  introduced : ∀ name, Introduced given grammar name → ∃ head original rest,
    original ∈ given.alternatives head ∧ rest <:+ original ∧ Hangs given grammar name rest

theorem VisitedUpTo.wellFormed {visited : List String} (known : VisitedUpTo given visited grammar)
    (wellFormed : given.WellFormed) : grammar.WellFormed := by
  have grows := known.grows
  have declared {head : String} {original : Alternative}
      (inside : original ∈ given.alternatives head) :
      ∀ token, token ∈ original → grammar.Declares token :=
    fun _ belongs => grows.declares (wellFormed.token_declared inside belongs)
  refine .of_alternatives (grows.heads wellFormed.heads) (fun head alternative member => ?_)
    fun start isStart => grows.nonTerminals start (wellFormed.start start (grows.start ▸ isStart))
  by_cases old : head ∈ given.nonTerminals
  · by_cases inVisited : head ∈ visited
    · rcases exists_item (known.represents head old inVisited) member with
        ⟨original, inside, splits⟩
      exact splits.declares (declared inside)
    · rw [grows.alternatives head old inVisited] at member
      exact declared member
  · have isHead := grows.heads wellFormed.heads head (mem_productions_of_mem member)
    rcases known.introduced head ⟨isHead, old⟩ with
      ⟨_, original, tokens, inside, tail, _, part, only, splits⟩
    rw [only, List.mem_singleton] at member
    exact member ▸ splits.declares fun token belongs =>
      declared inside token (tail.subset belongs)

theorem visited_start : VisitedUpTo given [] given :=
  ⟨.refl _ _, fun _ _ none => absurd none List.not_mem_nil, fun _ new => absurd new.1 new.2⟩

/-- Where no alternative is split nothing has to be set. -/
theorem exists_splitting {progress : Progress} {head : String}
    (within : ∀ name, name ∈ given.nonTerminals → name ∈ progress.grammar.nonTerminals)
    (heads : progress.grammar.HeadsDeclared) (declared : head ∈ progress.grammar.nonTerminals)
    (same : progress.grammar.alternatives head = given.alternatives head) :
    ∃ splitting, SplitUpTo given progress.grammar (given.alternatives head) splitting ∧
      Extends splitting.grammar [head] (visit given progress head).grammar ∧
      (visit given progress head).grammar.nonTerminals = splitting.grammar.nonTerminals ∧
      (visit given progress head).grammar.alternatives head = splitting.alternatives := by
  have start : SplitUpTo given progress.grammar [] ⟨progress.grammar, [], []⟩ :=
    ⟨.refl _ _, .nil, fun _ => .inl, fun _ => ⟨rfl, rfl⟩⟩
  have known : SplitUpTo given progress.grammar ([] ++ given.alternatives head)
      ((given.alternatives head).foldl (split head) ⟨progress.grammar, [], []⟩) :=
    splitUpTo_foldl start within heads (given.alternatives head)
  refine ⟨_, known, ?_⟩
  rw [visit]
  split
  case isTrue none =>
    rcases known.unchanged (List.isEmpty_iff.mp none) with ⟨unchanged, alternatives⟩
    rw [unchanged, alternatives]
    exact ⟨.refl _ _, rfl, same⟩
  case isFalse =>
    refine ⟨.setAlternatives (known.grows.nonTerminals head declared), rfl, ?_⟩
    exact (alternatives_setAlternatives ..).trans (if_pos rfl)

theorem VisitedUpTo.next {visited : List String} {progress : Progress} {head : String}
    (known : VisitedUpTo given visited progress.grammar) (wellFormed : given.WellFormed)
    (declared : head ∈ given.nonTerminals) (fresh : head ∉ visited) :
    VisitedUpTo given (visited ++ [head]) (visit given progress head).grammar := by
  have within := known.grows.nonTerminals
  rcases exists_splitting within (known.grows.heads wellFormed.heads) (within head declared)
    (known.grows.alternatives head declared fresh) with ⟨splitting, part, set, same, alternatives⟩
  have old : ∀ (grammar : Grammar) name, name ∈ [head] → ¬ Introduced given grammar name := by
    intro grammar name inside new
    exact new.2 (List.mem_singleton.mp inside ▸ declared)
  have grows : Extends progress.grammar [head] (visit given progress head).grammar :=
    part.grows.trans set (by simp)
  have keeps := keeps_of_extends grows (old progress.grammar)
  have keepsSplit := keeps_of_extends set (old splitting.grammar)
  refine ⟨known.grows.trans grows (by simp), fun other inGiven inside => ?_, fun name new => ?_⟩
  · rcases List.mem_append.mp inside with before | last
    · have differs : other ∉ [head] := fun last => fresh (List.mem_singleton.mp last ▸ before)
      rw [grows.alternatives other (within other inGiven) differs]
      exact represents_keep keeps (known.represents other inGiven before)
    · rw [List.mem_singleton.mp last, alternatives]
      exact represents_keep keepsSplit part.represents
  · rcases part.introduced name (same ▸ new.1) with before | ⟨original, rest, member, tail, hangs⟩
    · rcases known.introduced name ⟨before, new.2⟩ with
        ⟨source, original, rest, member, tail, hangs⟩
      exact ⟨source, original, rest, member, tail, hangs.keep keeps⟩
    · exact ⟨head, original, rest, member, tail, hangs.keep keepsSplit⟩

end Binary

open Binary

section Result

variable (wellFormed : grammar.WellFormed)

include wellFormed

theorem WellFormed.visited_binary :
    VisitedUpTo grammar grammar.heads grammar.binary.grammar := by
  refine foldl_visited (fun visited (progress : Progress) =>
      VisitedUpTo grammar visited progress.grammar) nodup_heads
    (fun _ _ head member fresh known => ?_) visited_start
  exact known.next wellFormed (wellFormed.heads head member) fresh

theorem WellFormed.represents_binary {head : String} (declared : head ∈ grammar.nonTerminals) :
    List.Forall₂ (Splits grammar grammar.binary.grammar) (grammar.alternatives head)
      (grammar.binary.grammar.alternatives head) := by
  by_cases visited : head ∈ grammar.productions
  · exact wellFormed.visited_binary.represents head declared visited
  · rw [wellFormed.visited_binary.grows.alternatives head declared visited,
      alternatives_eq_nil visited]
    exact .nil

theorem WellFormed.exists_splits {name : String} {alternative : Alternative}
    (member : alternative ∈ grammar.binary.grammar.alternatives name) :
    ∃ head original tokens, original ∈ grammar.alternatives head ∧ tokens <:+ original ∧
      Splits grammar grammar.binary.grammar tokens alternative := by
  have visited := wellFormed.visited_binary
  by_cases known : name ∈ grammar.nonTerminals
  · rcases exists_item (wellFormed.represents_binary known) member with
      ⟨original, inside, splits⟩
    exact ⟨name, original, original, inside, List.suffix_refl _, splits⟩
  · have declared := visited.grows.heads wellFormed.heads name (mem_productions_of_mem member)
    rcases visited.introduced name ⟨declared, known⟩ with
      ⟨head, original, tokens, inside, tail, _, part, only, splits⟩
    rw [only, List.mem_singleton] at member
    exact ⟨head, original, tokens, inside, tail, member ▸ splits⟩

/-- No alternative of the result has more than two tokens. -/
theorem WellFormed.length_alternative_binary {name : String} {alternative : Alternative}
    (member : alternative ∈ grammar.binary.grammar.alternatives name) :
    alternative.length ≤ 2 := by
  rcases wellFormed.exists_splits member with ⟨_, _, _, _, _, splits⟩
  exact splits.length_le

theorem WellFormed.binary : grammar.binary.grammar.WellFormed :=
  wellFormed.visited_binary.wellFormed wellFormed

/-! ## The language of the result -/

/-- An old name means what it derived, and a new one means what the tokens that it holds
yielded. -/
def Binary.Meaning (given grammar : Grammar) (name : String) (word : List String) : Prop :=
  (name ∈ given.nonTerminals → given.Derives name word) ∧
    ∀ tokens, (∀ token, token ∈ tokens → given.Declares token) →
      Hangs given grammar name tokens → given.Yields tokens word

omit wellFormed in
theorem Binary.Splits.sound {tokens : List Token} {part : Alternative}
    (splits : Splits given grammar tokens part)
    (declared : ∀ token, token ∈ tokens → given.Declares token) {word : List String}
    (spells : Spells (Meaning given grammar) part word) : given.Yields tokens word := by
  cases splits with
  | short =>
      exact yields_of_spells (spells.mono fun name inside _ means => means.1 (declared _ inside))
  | @long first rest next part new only splits =>
      rcases spells_cons_iff.mp spells with ⟨left, right, rfl, before, after⟩
      have means := (spells_singleton_iff.mp after).2 rest
        (fun token inside => declared token (List.mem_cons_of_mem _ inside))
        ⟨new, part, only, splits⟩
      have one : given.Yields [first] left := by
        refine yields_of_spells (before.mono fun name inside _ means => means.1 ?_)
        rw [List.mem_singleton] at inside
        exact declared (.nonTerminal name) (inside ▸ List.mem_cons_self)
      exact one.append means

omit wellFormed in
theorem Binary.Splits.complete {tokens : List Token} {part : Alternative}
    (splits : Splits given grammar tokens part) {word : List String}
    (yields : grammar.Yields tokens word) : grammar.Yields part word := by
  induction splits generalizing word with
  | short => exact yields
  | @long first rest next part _ only _ induction =>
      have parts : grammar.Yields ([first] ++ rest) word := yields
      rcases parts.split with ⟨left, right, rfl, before, after⟩
      refine before.append (yields_singleton_iff.mpr ⟨part, ?_, induction after⟩)
      rw [only]
      exact List.mem_singleton.mpr rfl

theorem WellFormed.derives_of_binary {name : String} {word : List String}
    (declared : name ∈ grammar.nonTerminals)
    (derives : grammar.binary.grammar.Derives name word) : grammar.Derives name word := by
  refine (derives.means (Meaning grammar grammar.binary.grammar) ?_).1 declared
  refine fun name alternative word member spells => ⟨fun known => ?_, fun tokens old hangs => ?_⟩
  · rcases exists_item (wellFormed.represents_binary known) member with
      ⟨original, inside, splits⟩
    exact ⟨original, inside, splits.sound (fun _ => wellFormed.token_declared inside) spells⟩
  · rcases hangs with ⟨_, part, only, splits⟩
    rw [only, List.mem_singleton] at member
    subst member
    exact splits.sound old spells

theorem WellFormed.derives_binary {name : String} {word : List String}
    (derives : grammar.Derives name word) : grammar.binary.grammar.Derives name word := by
  apply derives.transfer
  intro name alternative word member yields
  rcases exists_image (wellFormed.represents_binary (wellFormed.head_declared member)) member with
    ⟨part, inside, splits⟩
  exact ⟨part, inside, splits.complete yields⟩

theorem WellFormed.derives_binary_iff {name : String} {word : List String}
    (declared : name ∈ grammar.nonTerminals) :
    grammar.binary.grammar.Derives name word ↔ grammar.Derives name word :=
  ⟨wellFormed.derives_of_binary declared, wellFormed.derives_binary⟩

/-! ## Null non-terminals of the result -/

omit wellFormed in
theorem Binary.Splits.spells_nil {tokens : List Token} {part : Alternative}
    (splits : Splits given grammar tokens part)
    (declared : ∀ token, token ∈ tokens → given.Declares token)
    (silent : derivesEmpty grammar.nullNonTerminals part = true) :
    Spells (fun name _ => name ∈ given.nonTerminals ∧ name ∈ grammar.nullNonTerminals)
      tokens [] := by
  induction splits with
  | short =>
      refine (derivesEmpty_iff.mp silent).mono fun name inside _ null => ⟨?_, null⟩
      exact declared (.nonTerminal name) inside
  | @long first rest next part _ only _ induction =>
      have null := spells_nil_iff.mp (derivesEmpty_iff.mp silent)
      have later : next ∈ grammar.nullNonTerminals := by
        rcases null _ (List.mem_cons_of_mem _ List.mem_cons_self) with none | ⟨name, same, null⟩
        · cases none
        · cases same
          exact null
      have rests := induction (fun token inside => declared token (List.mem_cons_of_mem _ inside))
        (derivesEmpty_of_mem_null later (only ▸ List.mem_singleton.mpr rfl))
      refine spells_nil_iff.mpr (List.forall_mem_cons.mpr ⟨?_, spells_nil_iff.mp rests⟩)
      apply (null first List.mem_cons_self).imp_right
      intro found
      rcases found with ⟨name, rfl, isNull⟩
      exact ⟨name, rfl, declared _ List.mem_cons_self, isNull⟩

theorem WellFormed.mem_null_of_binary {name : String} (declared : name ∈ grammar.nonTerminals)
    (null : name ∈ grammar.binary.grammar.nullNonTerminals) :
    name ∈ grammar.nullNonTerminals := by
  refine mem_null (fun name => name ∈ grammar.nonTerminals ∧
    name ∈ grammar.binary.grammar.nullNonTerminals) ?_ ?_ ⟨declared, null⟩
  · intro name found alternative member
    rcases found with ⟨declared, null⟩
    rcases exists_image (wellFormed.represents_binary declared) member with
      ⟨part, inside, splits⟩
    exact splits.spells_nil (fun _ => wellFormed.token_declared member)
      (derivesEmpty_of_mem_null null inside)
  · intro name found
    rcases found with ⟨declared, null⟩
    have derives := wellFormed.binary.mem_nullable_iff.mp (mem_nullable_of_mem_null null)
    exact wellFormed.mem_nullable_iff.mpr (wellFormed.derives_of_binary declared derives)

end Result

end FormalLanguages.Grammar
