import FormalLanguages.Grammar.NormalForm.Lifted
import FormalLanguages.Proofs.Grammar.Passes
import FormalLanguages.Proofs.Name.Freshness

namespace FormalLanguages.Grammar

/-! # Replacing terminals keeps the language

The non-terminals that take the places of terminals have one alternative, which is the
terminal itself. New ones have it from the start, and old ones had it already. -/

variable {given grammar later : Grammar}

namespace Lifted

/-! ## Standing for a terminal -/

structure Stands (given grammar : Grammar) (terminal name : String) : Prop where
  declared : name ∈ grammar.nonTerminals
  isTerminal : terminal ∈ given.terminals
  only : grammar.alternatives name = [[.terminal terminal]]
  own : name ∈ given.nonTerminals → given.alternatives name = [[.terminal terminal]]
  invented : ¬ name ∈ given.nonTerminals →
    ∃ taken, name = Name.freshOrSelf (stem terminal) taken

theorem Stands.extends {changed : List String} {terminal name : String}
    (stands : Stands given grammar terminal name) (grows : Extends grammar changed later)
    (kept : name ∉ changed) : Stands given later terminal name where
  declared := grows.nonTerminals name stands.declared
  isTerminal := stands.isTerminal
  only := (grows.alternatives name stands.declared kept).trans stands.only
  own := stands.own
  invented := stands.invented

/-- Terminals are replaced by names that stand for them, and all else is kept. -/
inductive Lifts (given grammar : Grammar) : List Token → List Token → Prop
  | nil : Lifts given grammar [] []
  | kept {token : Token} {rest lifted : List Token} (other : ∀ name, token ≠ .terminal name)
      (later : Lifts given grammar rest lifted) :
      Lifts given grammar (token :: rest) (token :: lifted)
  | standing {terminal name : String} {rest lifted : List Token}
      (stands : Stands given grammar terminal name) (later : Lifts given grammar rest lifted) :
      Lifts given grammar (.terminal terminal :: rest) (.nonTerminal name :: lifted)

inductive Represents (given grammar : Grammar) : Alternative → Alternative → Prop
  | short {alternative : Alternative} (bounded : alternative.length < 2) :
      Represents given grammar alternative alternative
  | long {original part : Alternative} (enough : 2 ≤ original.length)
      (lifts : Lifts given grammar original part) : Represents given grammar original part

def Keeps (given grammar later : Grammar) : Prop :=
  ∀ terminal name, Stands given grammar terminal name → Stands given later terminal name

theorem keeps_of_extends (grows : Extends grammar [] later) : Keeps given grammar later :=
  fun _ _ stands => stands.extends grows List.not_mem_nil

theorem Lifts.keep {tokens lifted : List Token} (keeps : Keeps given grammar later)
    (lifts : Lifts given grammar tokens lifted) : Lifts given later tokens lifted := by
  induction lifts with
  | nil => exact .nil
  | kept other _ induction => exact .kept other induction
  | standing stands _ induction => exact .standing (keeps _ _ stands) induction

theorem Represents.keep {original part : Alternative} (keeps : Keeps given grammar later)
    (represents : Represents given grammar original part) :
    Represents given later original part := by
  cases represents with
  | short bounded => exact .short bounded
  | long enough lifts => exact .long enough (lifts.keep keeps)

theorem Lifts.declares {changed : List String} {tokens lifted : List Token}
    (lifts : Lifts given grammar tokens lifted)
    (grows : Extends given changed grammar)
    (declared : ∀ token, token ∈ tokens → given.Declares token) :
    ∀ token, token ∈ lifted → grammar.Declares token := by
  induction lifts with
  | nil => exact fun _ none => absurd none List.not_mem_nil
  | kept _ _ induction =>
      rcases List.forall_mem_cons.mp declared with ⟨here, rests⟩
      exact List.forall_mem_cons.mpr ⟨grows.declares here, induction rests⟩
  | standing stands _ induction =>
      rcases List.forall_mem_cons.mp declared with ⟨_, rests⟩
      exact List.forall_mem_cons.mpr ⟨stands.declared, induction rests⟩

theorem Represents.declares {changed : List String} {original part : Alternative}
    (represents : Represents given grammar original part) (grows : Extends given changed grammar)
    (declared : ∀ token, token ∈ original → given.Declares token) :
    ∀ token, token ∈ part → grammar.Declares token := by
  cases represents with
  | short => exact fun token inside => grows.declares (declared token inside)
  | long _ lifts => exact lifts.declares grows declared

theorem Lifts.length_eq {tokens lifted : List Token} (lifts : Lifts given grammar tokens lifted) :
    lifted.length = tokens.length := by
  induction lifts with
  | nil => rfl
  | kept _ _ induction => exact congrArg (· + 1) induction
  | standing _ _ induction => exact congrArg (· + 1) induction

theorem Lifts.empty_mem {tokens lifted : List Token} (lifts : Lifts given grammar tokens lifted)
    (empty : .empty ∈ lifted) : .empty ∈ tokens := by
  induction lifts with
  | nil => exact empty
  | kept _ _ induction =>
      rcases List.mem_cons.mp empty with rfl | later
      · exact List.mem_cons_self
      · exact List.mem_cons_of_mem _ (induction later)
  | standing _ _ induction =>
      rcases List.mem_cons.mp empty with same | later
      · cases same
      · exact List.mem_cons_of_mem _ (induction later)

theorem Lifts.not_terminal {tokens lifted : List Token} (lifts : Lifts given grammar tokens lifted)
    (name : String) : .terminal name ∉ lifted := by
  induction lifts with
  | nil => exact List.not_mem_nil
  | kept other _ induction =>
      exact List.not_mem_cons_of_ne_of_not_mem (Ne.symm (other name)) induction
  | standing _ _ induction => exact List.not_mem_cons_of_ne_of_not_mem Token.noConfusion induction

/-! What stays as it is holds no terminal, so it does not depend on what stands. -/

theorem Lifts.unchanged {tokens : List Token} (lifts : Lifts given grammar tokens tokens)
    (later : Grammar) : Lifts given later tokens tokens := by
  induction tokens with
  | nil => exact .nil
  | cons token rest induction =>
      cases lifts with
      | kept other lifts => exact .kept other (induction lifts)

theorem Represents.unchanged {original : Alternative}
    (represents : Represents given grammar original original) (later : Grammar) :
    Represents given later original original := by
  cases represents with
  | short bounded => exact .short bounded
  | long enough lifts => exact .long enough (lifts.unchanged later)

/-! ## Lifting -/

/-- What lifting adds to a grammar stands for terminals. -/
structure Continues (given : Grammar) (before after : Lifting) : Prop where
  grows : Extends before.grammar [] after.grammar
  standing : ∀ terminal name, after.standing.get? terminal = some name →
    Stands given after.grammar terminal name
  introduced : ∀ name, name ∈ after.grammar.nonTerminals → name ∈ before.grammar.nonTerminals ∨
    ∃ terminal, Stands given after.grammar terminal name

/-- Names that stand for terminals are known, and the old ones are declared. -/
structure Ready (given : Grammar) (lifting : Lifting) : Prop where
  within : ∀ name, name ∈ given.nonTerminals → name ∈ lifting.grammar.nonTerminals
  standing : ∀ terminal name, lifting.standing.get? terminal = some name →
    Stands given lifting.grammar terminal name

theorem Continues.ready {before after : Lifting} (continues : Continues given before after)
    (ready : Ready given before) : Ready given after where
  within name old := continues.grows.nonTerminals name (ready.within name old)
  standing := continues.standing

theorem Ready.refl {lifting : Lifting} (ready : Ready given lifting) :
    Continues given lifting lifting where
  grows := .refl _ _
  standing := ready.standing
  introduced _ := .inl

theorem Continues.trans {before between after : Lifting} (first : Continues given before between)
    (second : Continues given between after) : Continues given before after where
  grows := first.grows.trans second.grows (by simp)
  standing := second.standing
  introduced name inside := by
    rcases second.introduced name inside with joined | stands
    · rcases first.introduced name joined with old | ⟨terminal, stands⟩
      · exact .inl old
      · exact .inr ⟨terminal, keeps_of_extends second.grows terminal name stands⟩
    · exact .inr stands

theorem liftTerminal_spec {lifting : Lifting} {terminal : String} (ready : Ready given lifting)
    (declared : terminal ∈ given.terminals) :
    Continues given lifting (liftTerminal lifting terminal).2 ∧
      Stands given (liftTerminal lifting terminal).2.grammar terminal
        (liftTerminal lifting terminal).1 := by
  rw [liftTerminal]
  split
  case h_1 name found => exact ⟨ready.refl, ready.standing terminal name found⟩
  case h_2 =>
    let name := Name.freshOrSelf (stem terminal) lifting.grammar.symbolNames
    let extended := (lifting.grammar.addNonTerminal name).setAlternatives name
      [[.terminal terminal]]
    have free : ¬ name ∈ lifting.grammar.nonTerminals :=
      not_mem_nonTerminals (Name.freshOrSelf_not_mem (stem terminal) lifting.grammar.symbolNames)
    have joins : name ∈ (lifting.grammar.addNonTerminal name).nonTerminals :=
      mem_addNonTerminal.mpr (.inl rfl)
    have grows : Extends lifting.grammar [] extended :=
      (Extends.addNonTerminal lifting.grammar name).trans_new (.setAlternatives joins) free
    have stands : Stands given extended terminal name :=
      ⟨joins, declared, (alternatives_setAlternatives ..).trans (if_pos rfl),
        fun old => absurd (ready.within name old) free, fun _ => ⟨_, rfl⟩⟩
    refine ⟨⟨grows, fun other known found => ?_, fun other inside => ?_⟩, stands⟩
    · rw [DeclaredMap.get?_insert] at found
      split at found
      case isTrue same =>
        cases found
        exact same ▸ stands
      case isFalse => exact keeps_of_extends grows other known (ready.standing other known found)
    · rcases mem_addNonTerminal.mp inside with rfl | old
      · exact .inr ⟨terminal, stands⟩
      · exact .inl old

theorem liftTokens_spec {lifting : Lifting} {tokens : List Token} (ready : Ready given lifting)
    (declared : ∀ token, token ∈ tokens → given.Declares token) :
    Continues given lifting (liftTokens lifting tokens).2 ∧
      Lifts given (liftTokens lifting tokens).2.grammar tokens (liftTokens lifting tokens).1 := by
  induction tokens generalizing lifting with
  | nil => exact ⟨ready.refl, .nil⟩
  | cons token rest induction =>
      have later : ∀ token, token ∈ rest → given.Declares token :=
        fun token inside => declared token (List.mem_cons_of_mem _ inside)
      cases token with
      | terminal terminal =>
          have first := liftTerminal_spec ready (declared _ List.mem_cons_self)
          have rests := induction (first.1.ready ready) later
          exact ⟨first.1.trans rests.1,
            .standing (keeps_of_extends rests.1.grows _ _ first.2) rests.2⟩
      | nonTerminal | empty =>
          have rests := induction ready later
          exact ⟨rests.1, .kept (by simp) rests.2⟩

theorem liftAlternative_spec {lifting : Lifting} {alternative : Alternative}
    (ready : Ready given lifting)
    (declared : ∀ token, token ∈ alternative → given.Declares token) :
    Continues given lifting (liftAlternative lifting alternative).2 ∧
      Represents given (liftAlternative lifting alternative).2.grammar alternative
        (liftAlternative lifting alternative).1 := by
  rw [liftAlternative]
  split
  case isTrue bounded => exact ⟨ready.refl, .short bounded⟩
  case isFalse long =>
    have lifted := liftTokens_spec ready declared
    exact ⟨lifted.1, .long (Nat.le_of_not_lt long) lifted.2⟩

theorem liftAlternatives_spec {lifting : Lifting} {alternatives : List Alternative}
    (ready : Ready given lifting) (declared : ∀ alternative, alternative ∈ alternatives →
      ∀ token, token ∈ alternative → given.Declares token) :
    Continues given lifting (liftAlternatives lifting alternatives).2 ∧
      List.Forall₂ (Represents given (liftAlternatives lifting alternatives).2.grammar)
        alternatives (liftAlternatives lifting alternatives).1 := by
  induction alternatives generalizing lifting with
  | nil => exact ⟨ready.refl, .nil⟩
  | cons alternative rest induction =>
      have first := liftAlternative_spec ready (declared _ List.mem_cons_self)
      have rests := induction (first.1.ready ready)
        fun alternative inside => declared alternative (List.mem_cons_of_mem _ inside)
      exact ⟨first.1.trans rests.1,
        .cons (first.2.keep (keeps_of_extends rests.1.grows)) rests.2⟩

/-! ## All heads -/

/-- What is known once some heads are visited. -/
structure VisitedUpTo (given : Grammar) (visited : List String) (state : State) : Prop where
  grows : Extends given visited state.progress.grammar
  represents : ∀ head, head ∈ given.nonTerminals → head ∈ visited →
    List.Forall₂ (Represents given state.progress.grammar) (given.alternatives head)
      (state.progress.grammar.alternatives head)
  standing : ∀ terminal name, state.standing.get? terminal = some name →
    Stands given state.progress.grammar terminal name
  introduced : ∀ name, name ∈ state.progress.grammar.nonTerminals → name ∈ given.nonTerminals ∨
    ∃ terminal, Stands given state.progress.grammar terminal name

theorem VisitedUpTo.wellFormed {visited : List String} {state : State}
    (known : VisitedUpTo given visited state) (wellFormed : given.WellFormed) :
    state.progress.grammar.WellFormed := by
  have grows := known.grows
  refine .of_alternatives (grows.heads wellFormed.heads) (fun head alternative member => ?_)
    fun start isStart => grows.nonTerminals start (wellFormed.start start (grows.start ▸ isStart))
  have isHead := grows.heads wellFormed.heads head (mem_productions_of_mem member)
  rcases known.introduced head isHead with old | ⟨terminal, stands⟩
  · by_cases inVisited : head ∈ visited
    · rcases exists_item (known.represents head old inVisited) member with
        ⟨original, inside, represents⟩
      exact represents.declares grows fun _ => wellFormed.token_declared inside
    · rw [grows.alternatives head old inVisited] at member
      exact fun token inside => grows.declares (wellFormed.token_declared member inside)
  · intro token inside
    rw [stands.only, List.mem_singleton] at member
    rw [member, List.mem_singleton] at inside
    rw [inside]
    exact grows.declares (show given.Declares (.terminal terminal) from stands.isTerminal)

/-- What the alternatives of a head are lifted to. -/
def lifting (given : Grammar) (state : State) (head : String) : List Alternative × Lifting :=
  liftAlternatives ⟨state.progress.grammar, state.standing, []⟩ (given.alternatives head)

def liftedGrammar (given : Grammar) (state : State) (head : String) : Grammar :=
  (lifting given state head).2.grammar.setAlternatives head (lifting given state head).1

theorem visit_eq (given : Grammar) (state : State) (head : String) : visit given state head =
    if (lifting given state head).1 = given.alternatives head then state
    else
      { progress := state.progress.reach (liftedGrammar given state head)
          (description head (lifting given state head).2.introduced)
        standing := (lifting given state head).2.standing } := rfl

theorem lifting_spec {visited : List String} {state : State} (wellFormed : given.WellFormed)
    (known : VisitedUpTo given visited state) (head : String) :
    Continues given ⟨state.progress.grammar, state.standing, []⟩ (lifting given state head).2 ∧
      List.Forall₂ (Represents given (lifting given state head).2.grammar)
        (given.alternatives head) (lifting given state head).1 :=
  liftAlternatives_spec ⟨known.grows.nonTerminals, known.standing⟩
    fun _ member _ => wellFormed.token_declared member

/-- Setting the alternatives of a head leaves what stands for a terminal alone, as its
alternative would not have been lifted. -/
theorem keeps_liftedGrammar {state : State} {head : String}
    (declared : head ∈ given.nonTerminals)
    (inside : head ∈ (lifting given state head).2.grammar.nonTerminals)
    (different : (lifting given state head).1 ≠ given.alternatives head) :
    Keeps given (lifting given state head).2.grammar (liftedGrammar given state head) := by
  intro terminal name stands
  refine stands.extends (.setAlternatives inside) fun same => different ?_
  rw [List.mem_singleton] at same
  have own := stands.own (same ▸ declared)
  rw [same] at own
  rw [lifting, own]
  rfl

/-- A head whose alternatives come out as they were needs no change. -/
theorem VisitedUpTo.unchanged {visited : List String} {state : State} {head : String}
    (known : VisitedUpTo given visited state) (declared : head ∈ given.nonTerminals)
    (fresh : head ∉ visited) {lifted : Grammar}
    (represents : List.Forall₂ (Represents given lifted) (given.alternatives head)
      (given.alternatives head)) : VisitedUpTo given (visited ++ [head]) state := by
  have grows : Extends given (visited ++ [head]) state.progress.grammar :=
    known.grows.trans (.refl _ []) fun _ _ inside =>
      List.mem_append_left _ (inside.resolve_right List.not_mem_nil)
  refine ⟨grows, fun other inGiven inside => ?_, known.standing, known.introduced⟩
  rcases List.mem_append.mp inside with before | last
  · exact known.represents other inGiven before
  · rw [List.mem_singleton.mp last, known.grows.alternatives head declared fresh]
    apply List.forall₂_same.mpr
    intro original member
    exact (List.forall₂_same.mp represents original member).unchanged _

theorem VisitedUpTo.next {visited : List String} {state : State} {head : String}
    (known : VisitedUpTo given visited state) (wellFormed : given.WellFormed)
    (declared : head ∈ given.nonTerminals) (fresh : head ∉ visited) :
    VisitedUpTo given (visited ++ [head]) (visit given state head) := by
  have within := known.grows.nonTerminals
  rcases lifting_spec wellFormed known head with ⟨continues, represents⟩
  rw [visit_eq]
  split
  case isTrue same =>
    rw [same] at represents
    exact known.unchanged declared fresh represents
  case isFalse different =>
    have inAfter := continues.grows.nonTerminals head (within head declared)
    have keepsSet := keeps_liftedGrammar declared inAfter different
    have grows : Extends state.progress.grammar [head] (liftedGrammar given state head) :=
      continues.grows.trans (.setAlternatives inAfter) (by simp)
    have keeps : Keeps given state.progress.grammar (liftedGrammar given state head) :=
      fun terminal name stands =>
        keepsSet terminal name (keeps_of_extends continues.grows terminal name stands)
    refine ⟨known.grows.trans grows (by simp), fun other inGiven inside => ?_,
      fun terminal name found => keepsSet terminal name (continues.standing terminal name found),
      fun name inside => ?_⟩
    · rcases List.mem_append.mp inside with before | last
      · have differs : other ∉ [head] := fun last => fresh (List.mem_singleton.mp last ▸ before)
        rw [Progress.reach, grows.alternatives other (within other inGiven) differs]
        exact (known.represents other inGiven before).imp fun _ _ one => one.keep keeps
      · rw [List.mem_singleton.mp last, Progress.reach, liftedGrammar,
          alternatives_setAlternatives, if_pos rfl]
        exact represents.imp fun _ _ one => one.keep keepsSet
    · rcases continues.introduced name inside with old | ⟨terminal, stands⟩
      · rcases known.introduced name old with old | ⟨terminal, stands⟩
        · exact .inl old
        · exact .inr ⟨terminal, keeps terminal name stands⟩
      · exact .inr ⟨terminal, keepsSet terminal name stands⟩

theorem stands_of_initial (wellFormed : grammar.WellFormed) {terminal name : String}
    (found : (initialStanding grammar).get? terminal = some name) :
    Stands grammar grammar terminal name := by
  rcases List.mem_filterMap.mp (DeclaredMap.mem_of_get?_ofList found) with
    ⟨⟨head, alternatives⟩, inside, same⟩
  simp only [standingOf?] at same
  split at same
  case h_1 =>
    split at same
    case isTrue => cases same
    case isFalse =>
      cases same
      have only : grammar.alternatives name = [[.terminal terminal]] := by
        rw [Grammar.alternatives, DeclaredMap.get?_eq_some_iff.mpr inside]
        rfl
      have member : [Token.terminal terminal] ∈ grammar.alternatives name :=
        only ▸ List.mem_singleton.mpr rfl
      exact ⟨wellFormed.head_declared member,
        wellFormed.token_declared member (List.mem_singleton.mpr rfl), only, fun _ => only,
        fun new => absurd (wellFormed.head_declared member) new⟩
  case h_2 => cases same

theorem visited_start (wellFormed : grammar.WellFormed) :
    VisitedUpTo grammar [] ⟨.start grammar, initialStanding grammar⟩ :=
  ⟨.refl _ _, fun _ _ none => absurd none List.not_mem_nil,
    fun _ _ => stands_of_initial wellFormed, fun _ => .inl⟩

end Lifted

open Lifted

section Result

variable (wellFormed : grammar.WellFormed)

include wellFormed

theorem WellFormed.visited_lifted : ∃ state, grammar.lifted = state.progress ∧
    VisitedUpTo grammar grammar.heads state := by
  refine ⟨_, rfl, foldl_visited (VisitedUpTo grammar) nodup_heads
    (fun _ _ head member fresh known => ?_) (visited_start wellFormed)⟩
  exact known.next wellFormed (wellFormed.heads head member) fresh

theorem WellFormed.extends_lifted : Extends grammar grammar.heads grammar.lifted.grammar := by
  rcases wellFormed.visited_lifted with ⟨state, same, visited⟩
  exact same ▸ visited.grows

theorem WellFormed.represents_lifted {head : String} (declared : head ∈ grammar.nonTerminals) :
    List.Forall₂ (Represents grammar grammar.lifted.grammar) (grammar.alternatives head)
      (grammar.lifted.grammar.alternatives head) := by
  by_cases visited : head ∈ grammar.productions
  · rcases wellFormed.visited_lifted with ⟨state, same, known⟩
    exact same ▸ known.represents head declared visited
  · rw [wellFormed.extends_lifted.alternatives head declared visited,
      alternatives_eq_nil visited]
    exact .nil

theorem WellFormed.stands_lifted {name : String}
    (declared : name ∈ grammar.lifted.grammar.nonTerminals) : name ∈ grammar.nonTerminals ∨
      ∃ terminal, Stands grammar grammar.lifted.grammar terminal name := by
  rcases wellFormed.visited_lifted with ⟨state, same, visited⟩
  rw [same] at declared ⊢
  exact visited.introduced name declared

theorem WellFormed.lifted : grammar.lifted.grammar.WellFormed := by
  rcases wellFormed.visited_lifted with ⟨state, same, visited⟩
  exact same ▸ visited.wellFormed wellFormed

/-- In the result a terminal stands alone. -/
theorem WellFormed.not_terminal_lifted {head name : String} {alternative : Alternative}
    (member : alternative ∈ grammar.lifted.grammar.alternatives head)
    (long : 2 ≤ alternative.length) : .terminal name ∉ alternative := by
  rcases wellFormed.stands_lifted (wellFormed.lifted.head_declared member) with
    old | ⟨terminal, stands⟩
  · rcases exists_item (wellFormed.represents_lifted old) member with ⟨_, _, represents⟩
    cases represents with
    | short bounded => exact absurd bounded (Nat.not_lt.mpr long)
    | long _ lifts => exact lifts.not_terminal name
  · rw [stands.only, List.mem_singleton] at member
    subst member
    exact absurd long (by simp)

/-! ## The language of the result -/

/-- An old name means what it derived, and what stands for a terminal means it. -/
def Lifted.Meaning (given grammar : Grammar) (name : String) (word : List String) : Prop :=
  (name ∈ given.nonTerminals → given.Derives name word) ∧
    ∀ terminal, grammar.alternatives name = [[.terminal terminal]] → word = [terminal]

omit wellFormed in
theorem Lifted.Lifts.sound {tokens lifted : List Token} (lifts : Lifts given grammar tokens lifted)
    (declared : ∀ token, token ∈ tokens → given.Declares token) {word : List String}
    (spells : Spells (Meaning given grammar) lifted word) : given.Yields tokens word := by
  induction lifts generalizing word with
  | nil => exact spells ▸ .done
  | @kept token rest lifted _ _ induction =>
      rcases spells_cons_iff.mp spells with ⟨left, right, rfl, before, after⟩
      have one : given.Yields [token] left := by
        refine yields_of_spells (before.mono fun name inside _ means => means.1 ?_)
        rw [List.mem_singleton] at inside
        exact declared (.nonTerminal name) (inside ▸ List.mem_cons_self)
      exact one.append (induction (fun token inside => declared token
        (List.mem_cons_of_mem _ inside)) after)
  | standing stands _ induction =>
      rcases spells with ⟨first, tail, rfl, means, spells⟩
      rw [means.2 _ stands.only]
      exact .terminal _ (induction (fun token inside => declared token
        (List.mem_cons_of_mem _ inside)) spells)

omit wellFormed in
theorem Lifted.Lifts.spells {tokens lifted : List Token} {meaning : String → List String → Prop}
    (lifts : Lifts given grammar tokens lifted)
    (means : ∀ terminal name, Stands given grammar terminal name → meaning name [terminal])
    {word : List String} (spells : Spells meaning tokens word) : Spells meaning lifted word := by
  induction lifts generalizing word with
  | nil => exact spells
  | kept _ _ induction =>
      rcases spells_cons_iff.mp spells with ⟨left, right, same, before, after⟩
      exact spells_cons_iff.mpr ⟨left, right, same, before, induction after⟩
  | standing stands _ induction =>
      rcases spells with ⟨tail, rfl, spells⟩
      exact ⟨[_], tail, rfl, means _ _ stands, induction spells⟩

omit wellFormed in
theorem Lifted.Stands.forms {terminal name : String} (stands : Stands given grammar terminal name) :
    grammar.Forms name [terminal] :=
  ⟨List.cons_ne_nil _ _, [.terminal terminal], stands.only ▸ List.mem_singleton.mpr rfl,
    .terminal terminal .done⟩

omit wellFormed in
theorem Lifted.Represents.yields {original part : Alternative}
    (represents : Represents given grammar original part) {word : List String}
    (yields : grammar.Yields original word) : grammar.Yields part word := by
  cases represents with
  | short => exact yields
  | long _ lifts =>
      exact yields_iff_spells.mpr (lifts.spells (fun _ _ stands => stands.forms.derives)
        (yields_iff_spells.mp yields))

omit wellFormed in
theorem Lifted.Represents.builds {original part : Alternative}
    (represents : Represents given grammar original part) {word : List String}
    (builds : grammar.Builds original word) : grammar.Builds part word := by
  cases represents with
  | short => exact builds
  | long _ lifts =>
      rcases builds_iff_spells.mp builds with ⟨solid, spells⟩
      exact builds_iff_spells.mpr ⟨fun empty => solid (lifts.empty_mem empty),
        lifts.spells (fun _ _ stands => stands.forms) spells⟩

theorem WellFormed.derives_of_lifted {name : String} {word : List String}
    (declared : name ∈ grammar.nonTerminals)
    (derives : grammar.lifted.grammar.Derives name word) : grammar.Derives name word := by
  refine (derives.means (Meaning grammar grammar.lifted.grammar) ?_).1 declared
  refine fun name alternative word member spells => ⟨fun old => ?_, fun terminal only => ?_⟩
  · rcases exists_item (wellFormed.represents_lifted old) member with
      ⟨original, inside, represents⟩
    have known : ∀ token, token ∈ original → grammar.Declares token :=
      fun _ => wellFormed.token_declared inside
    refine ⟨original, inside, ?_⟩
    cases represents with
    | short => exact yields_of_spells (spells.mono fun _ inside _ means => means.1 (known _ inside))
    | long _ lifts => exact lifts.sound known spells
  · rw [only, List.mem_singleton] at member
    subst member
    rcases spells with ⟨tail, rfl, rfl⟩
    rfl

theorem WellFormed.derives_lifted {name : String} {word : List String}
    (derives : grammar.Derives name word) : grammar.lifted.grammar.Derives name word := by
  apply derives.transfer
  intro name alternative word member yields
  rcases exists_image (wellFormed.represents_lifted (wellFormed.head_declared member)) member with
    ⟨part, inside, represents⟩
  exact ⟨part, inside, represents.yields yields⟩

theorem WellFormed.forms_lifted {name : String} {word : List String}
    (forms : grammar.Forms name word) : grammar.lifted.grammar.Forms name word := by
  apply forms.transfer
  intro name alternative word member nonempty builds
  rcases exists_image (wellFormed.represents_lifted (wellFormed.head_declared member)) member with
    ⟨part, inside, represents⟩
  exact ⟨nonempty, part, inside, represents.builds builds⟩

theorem WellFormed.derives_lifted_iff {name : String} {word : List String}
    (declared : name ∈ grammar.nonTerminals) :
    grammar.lifted.grammar.Derives name word ↔ grammar.Derives name word :=
  ⟨wellFormed.derives_of_lifted declared, wellFormed.derives_lifted⟩

end Result

end FormalLanguages.Grammar
