import FormalLanguages.Automaton.Simulation
import FormalLanguages.Proofs.Regex.Fragments
import FormalLanguages.Proofs.Regex.Matching
import FormalLanguages.Proofs.Text.Segmentation

namespace FormalLanguages

/-! # The automaton of an expression

Each subexpression adds a fragment for its language at its place. -/

open scoped Computability

namespace Regex.Synthesis

variable {regex : Regex} {place : Place} {before middle after filled opened : Builder}
  {ends : Ends} {language : Language String}

namespace Place

def head (builder : Builder) : Place → String
  | .between head _ => head
  | .beside head _ => head
  | .after _ => builder.reached

def tail? : Place → Option String
  | .between _ tail => some tail
  | .beside _ tail => some tail
  | .after tail? => tail?

/-- Where a fragment at the place ends once it is wired. -/
def tail (place : Place) (builder : Builder) : String := place.tail?.getD builder.reached

end Place

structure Declared (place : Place) (builder : Builder) : Prop where
  head : place.head builder ∈ builder.automaton.states
  tail : ∀ tail, place.tail? = some tail → tail ∈ builder.automaton.states

structure Wired (language : Language String) (place : Place) (before after : Builder) : Prop where
  ready : Ready after.automaton after.supply
  joins : Joins language (place.head before) (place.tail after) before.automaton after.automaton
  new : place = .after none → ¬ after.reached ∈ before.automaton.states

/-! ## Places are opened and closed -/

/-- A fragment between the ends that a place was opened with. -/
structure Filled (language : Language String) (ends : Ends) (opened filled : Builder) : Prop where
  ready : Ready filled.automaton filled.supply
  joins : Joins language ends.head ends.tail opened.automaton filled.automaton

structure Opened (ends : Ends) (before opened : Builder) : Prop where
  ready : Ready opened.automaton opened.supply
  grows : Grows before.automaton opened.automaton
  head : ends.head ∈ opened.automaton.states
  tail : ends.tail ∈ opened.automaton.states

theorem opened_openAt (ready : Ready before.automaton before.supply)
    (declared : Declared place before) :
    Opened (before.openAt place).1 before (before.openAt place).2 := by
  cases place with
  | between head tail => exact ⟨ready, .refl _, declared.head, declared.tail tail rfl⟩
  | beside head tail =>
      exact ⟨ready.withEnds, grows_withEnds _ _, head_mem_withEnds, tail_mem_withEnds⟩
  | after tail? =>
      cases tail? with
      | some tail => exact ⟨ready, .refl _, declared.head, declared.tail tail rfl⟩
      | none =>
          have grows := grows_declareState before.automaton before.supply.fresh
          exact ⟨ready.declare, grows, grows.states _ declared.head,
            (Automaton.mem_states_declareState ..).mpr (.inl rfl)⟩

theorem wired_closeAt (ready : Ready before.automaton before.supply)
    (declared : Declared place before)
    (core : Filled language (before.openAt place).1 (before.openAt place).2 filled) :
    Wired language place before (filled.closeAt regex (before.openAt place).1 place) := by
  cases place with
  | between head tail => exact ⟨core.ready, core.joins, nofun⟩
  | beside head tail =>
      have toTail := declared.tail tail rfl
      have built := core.joins.ready_skips declared.head toTail core.ready
        (List.subset_append_left (outerLinks before.supply head tail) _)
      exact ⟨built.2, core.joins.enclosed declared.head toTail core.ready ready, nofun⟩
  | after tail? =>
      cases tail? with
      | some tail => exact ⟨core.ready, core.joins, nofun⟩
      | none =>
          exact ⟨core.ready, core.joins.undeclared ready declared.head,
            fun _ => ready.fresh_not_mem⟩

/-! ## One lemma for each kind of expression -/

theorem Opened.connect (opens : Opened ends before opened) (label : Label)
    (known : ∀ name, label = .symbol name → name ∈ before.automaton.alphabet) :
    Filled label.language ends opened (opened.connect ends.head label ends.tail) := by
  have fits : Fits opened.automaton ends.head label ends.tail :=
    ⟨opens.head, opens.tail, fun name same => opens.grows.alphabet ▸ known name same⟩
  exact ⟨opens.ready.connect fits, fits.joins⟩

theorem Wired.alternative {first second : Language String} {head tail : String}
    (left : Wired first (.beside head tail) before middle)
    (right : Wired second (.beside head tail) middle after)
    (declared : head ∈ before.automaton.states) :
    Wired (first + second) (.beside head tail) before after :=
  ⟨right.ready, left.joins.alternative right.joins declared, nofun⟩

theorem Wired.sequence {first second : Language String} {tail? : Option String}
    (left : Wired first (.after none) before middle)
    (right : Wired second (.after tail?) middle after)
    (old : ∀ tail, tail? = some tail → tail ∈ before.automaton.states) :
    Wired (first * second) (.after tail?) before after where
  ready := right.ready
  joins := by
    refine left.joins.sequence right.joins (left.new rfl) fun inMiddle => ?_
    cases tail? with
    | some tail => exact old tail rfl
    | none => exact absurd inMiddle (right.new rfl)
  new same := fun member => right.new same (left.joins.states _ member)

def loop (filled : Builder) (inner ends : Ends) : Builder :=
  (((filled.skip ends.head inner.head).skip inner.tail ends.tail).skip ends.head ends.tail).skip
    inner.tail inner.head

theorem automaton_skip (builder : Builder) (source target : String) :
    (builder.skip source target).automaton =
      builder.automaton.withTransition source .epsilon target := rfl

theorem supply_skip (builder : Builder) (source target : String) :
    (builder.skip source target).supply = builder.supply := rfl

theorem supply_loop (filled : Builder) (inner ends : Ends) :
    (loop filled inner ends).supply = filled.supply := by
  simp only [loop, supply_skip]

theorem automaton_loop (filled opened : Builder) (ends : Ends) :
    (loop filled opened.freshEnds.1 ends).automaton =
      skips filled.automaton (loopLinks opened.supply ends.head ends.tail) := by
  simp only [loop, automaton_skip, skips, loopLinks, outerLinks, List.cons_append, List.nil_append,
    List.foldl_cons, List.foldl_nil]
  rfl

theorem Opened.star (opens : Opened ends before opened)
    (inner : Wired language (.between opened.supply.fresh opened.supply.advance.fresh)
      opened.freshEnds.2 filled) :
    Filled language∗ ends opened (loop filled opened.freshEnds.1 ends) := by
  have joins : Joins language opened.supply.fresh opened.supply.advance.fresh
      (withEnds opened.automaton opened.supply) filled.automaton := inner.joins
  have built := joins.ready_skips opens.head opens.tail inner.ready
    (List.Subset.refl (loopLinks opened.supply ends.head ends.tail))
  constructor
  · rw [automaton_loop, supply_loop]
    exact built.2
  · rw [automaton_loop]
    exact joins.star opens.head opens.tail inner.ready opens.ready

theorem language_symbol (name : String) :
    (symbol name).language .letters = (Label.symbol name).language :=
  Language.ext fun _ => matches_symbol_iff

theorem language_reference (name : String) :
    (reference name).language .letters = (Label.symbol name).language :=
  Language.ext fun _ => matches_reference_iff

/-- At every place the expression becomes a fragment for its language. -/
def Wires (regex : Regex) : Prop :=
  ∀ {place : Place} {before : Builder}, Ready before.automaton before.supply →
    Declared place before → (∀ name, name ∈ regex.names → name ∈ before.automaton.alphabet) →
    Wired (regex.language .letters) place before (wire regex place before)

theorem wires_empty : Wires empty := by
  intro place before ready declared _
  have opens := opened_openAt ready declared
  exact wired_closeAt ready declared ⟨opens.ready, language_empty ▸ joins_nothing opens.tail⟩

theorem wires_nil : Wires nil := by
  intro place before ready declared _
  have opens := opened_openAt ready declared
  exact wired_closeAt ready declared (language_nil ▸ opens.connect .epsilon nofun)

theorem wires_symbol (name : String) : Wires (symbol name) := by
  intro place before ready declared known
  have opens := opened_openAt ready declared
  refine wired_closeAt ready declared (language_symbol name ▸ opens.connect (.symbol name) ?_)
  rintro _ ⟨⟩
  exact known name List.mem_cons_self

theorem wires_reference (name : String) : Wires (reference name) := by
  intro place before ready declared known
  have opens := opened_openAt ready declared
  refine wired_closeAt ready declared (language_reference name ▸ opens.connect (.symbol name) ?_)
  rintro _ ⟨⟩
  exact known name List.mem_cons_self

theorem Wires.star {body : Regex} (wires : Wires body) : Wires (star body) := by
  intro place before ready declared known
  have opens := opened_openAt ready declared
  rw [language_star]
  refine wired_closeAt ready declared (opens.star (wires opens.ready.withEnds ?_ ?_))
  · exact ⟨head_mem_withEnds, fun _ same => Option.some.inj same ▸ tail_mem_withEnds⟩
  · exact fun name member => opens.grows.alphabet.symm ▸ known name member

section Two

variable {left right : Regex} (wiresLeft : Wires left) (wiresRight : Wires right)

include wiresLeft wiresRight

theorem Wires.beside {head tail : String} (ready : Ready before.automaton before.supply)
    (declared : Declared (.beside head tail) before)
    (known : ∀ name, name ∈ left.names ++ right.names → name ∈ before.automaton.alphabet) :
    Wired ((alternative left right).language .letters) (.beside head tail) before
      (wire right (.beside head tail) (wire left (.beside head tail) before)) := by
  have first := wiresLeft ready declared fun name member =>
    known name (List.mem_append_left _ member)
  have remains : Declared (.beside head tail) (wire left (.beside head tail) before) :=
    ⟨first.joins.states _ declared.head, fun _ same =>
      first.joins.states _ (declared.tail _ same)⟩
  have second := wiresRight first.ready remains fun name member =>
    first.joins.alphabet.symm ▸ known name (List.mem_append_right _ member)
  exact language_alternative left right ▸ first.alternative second declared.head

theorem Wires.alternative : Wires (alternative left right) := by
  intro place before ready declared known
  have opens := opened_openAt ready declared
  have within : Declared (.beside (before.openAt place).1.head (before.openAt place).1.tail)
      (before.openAt place).2 := ⟨opens.head, fun _ same => Option.some.inj same ▸ opens.tail⟩
  have branches := wiresLeft.beside wiresRight opens.ready within fun name member =>
    opens.grows.alphabet.symm ▸ known name member
  cases place with
  | beside head tail => exact wiresLeft.beside wiresRight ready declared known
  | between head tail => exact wired_closeAt ready declared ⟨branches.ready, branches.joins⟩
  | after tail? => exact wired_closeAt ready declared ⟨branches.ready, branches.joins⟩

theorem Wires.following {tail? : Option String} (ready : Ready before.automaton before.supply)
    (declared : Declared (.after tail?) before)
    (known : ∀ name, name ∈ left.names ++ right.names → name ∈ before.automaton.alphabet) :
    Wired ((sequence left right).language .letters) (.after tail?) before
      (wire right (.after tail?) (wire left (.after none) before)) := by
  have start : Declared (.after none) before := ⟨declared.head, nofun⟩
  have first := wiresLeft ready start fun name member => known name (List.mem_append_left _ member)
  have remains : Declared (.after tail?) (wire left (.after none) before) :=
    ⟨first.joins.declared, fun _ same => first.joins.states _ (declared.tail _ same)⟩
  have second := wiresRight first.ready remains fun name member =>
    first.joins.alphabet.symm ▸ known name (List.mem_append_right _ member)
  exact language_sequence left right ▸ first.sequence second declared.tail

theorem Wires.sequence : Wires (sequence left right) := by
  intro place before ready declared known
  have opens := opened_openAt ready declared
  have within : Declared (.after (some (before.openAt place).1.tail))
      { (before.openAt place).2 with reached := (before.openAt place).1.head } :=
    ⟨opens.head, fun _ same => Option.some.inj same ▸ opens.tail⟩
  have chain : Wired _ _ { (before.openAt place).2 with reached := (before.openAt place).1.head } _ :=
    wiresLeft.following wiresRight opens.ready within fun name member =>
      opens.grows.alphabet.symm ▸ known name member
  cases place with
  | after tail? => exact wiresLeft.following wiresRight ready declared known
  | between head tail => exact wired_closeAt ready declared ⟨chain.ready, chain.joins⟩
  | beside head tail => exact wired_closeAt ready declared ⟨chain.ready, chain.joins⟩

end Two

theorem wires (regex : Regex) : Wires regex := by
  induction regex with
  | empty => exact wires_empty
  | nil => exact wires_nil
  | symbol name => exact wires_symbol name
  | reference name => exact wires_reference name
  | sequence _ _ first second => exact first.sequence second
  | alternative _ _ left right => exact left.alternative right
  | star _ body => exact body.star

/-! ## The whole automaton -/

def supply : Name.Supply := ⟨stateStem, 0⟩

def blank (regex : Regex) : Automaton :=
  ((Automaton.new supply.fresh).withAccepting supply.advance.fresh).withSymbols
    regex.symbols.toList

def blankBuilder (regex : Regex) : Builder :=
  ⟨blank regex, supply.advance.advance, supply.fresh, []⟩

theorem result_synthesise (regex : Regex) :
    (synthesise regex).result =
      (wire regex (.between supply.fresh supply.advance.fresh) (blankBuilder regex)).automaton := rfl

theorem not_mem_edges_blank (regex : Regex) (state : String) (edge : Edge) :
    ¬ edge ∈ (blank regex).edges state := by
  rw [blank, Automaton.withSymbols_eq]
  exact fun member => Automaton.not_mem_edges_new _ state edge
    (Automaton.edges_withAccepting .. ▸ member)

theorem mem_states_blank {regex : Regex} {state : String} :
    state ∈ (blank regex).states ↔ state = supply.advance.fresh ∨ state = supply.fresh := by
  rw [blank, Automaton.withSymbols_eq]
  exact (Automaton.mem_states_withAccepting ..).trans (or_congr_right List.mem_singleton)

theorem mem_accepting_blank {regex : Regex} {state : String} :
    state ∈ (blank regex).accepting ↔ state = supply.advance.fresh := by
  rw [blank, Automaton.withSymbols_eq]
  exact (Automaton.mem_accepting_withAccepting ..).trans (or_iff_left SortedSet.not_mem_empty)

theorem starting_blank (regex : Regex) : (blank regex).starting = supply.fresh := by
  rw [blank, Automaton.withSymbols_eq]
  rfl

theorem alphabet_blank (regex : Regex) : (blank regex).alphabet = regex.symbols := by
  refine SortedSet.ext fun symbol => Automaton.mem_alphabet_withSymbols.trans ?_
  exact (or_iff_left SortedSet.not_mem_empty).trans SortedSet.mem_toList

theorem ready_blank (regex : Regex) : Ready (blank regex) supply.advance.advance where
  valid := {
    starting := mem_states_blank.mpr (.inr (starting_blank regex))
    accepting := fun _ member => mem_states_blank.mpr (.inl (mem_accepting_blank.mp member))
    symbols := fun state _ _ edge => absurd edge (not_mem_edges_blank regex state _)
    targets := fun state _ _ edge => absurd edge (not_mem_edges_blank regex state _) }
  numbers := by
    intro state member
    rcases mem_states_blank.mp member with rfl | rfl
    · exact ⟨1, by decide, rfl⟩
    · exact ⟨0, by decide, rfl⟩

theorem wired_synthesise (regex : Regex) :
    Wired (regex.language .letters) (.between supply.fresh supply.advance.fresh)
      (blankBuilder regex)
      (wire regex (.between supply.fresh supply.advance.fresh) (blankBuilder regex)) := by
  refine wires regex (ready_blank regex) ⟨mem_states_blank.mpr (.inr rfl), fun _ same =>
    Option.some.inj same ▸ mem_states_blank.mpr (.inl rfl)⟩ fun name member => ?_
  exact (alphabet_blank regex).symm ▸ SortedSet.mem_ofList.mpr member

theorem valid_synthesise (regex : Regex) : (synthesise regex).result.Valid :=
  (wired_synthesise regex).ready.valid

theorem alphabet_synthesise (regex : Regex) :
    (synthesise regex).result.alphabet = regex.symbols :=
  (wired_synthesise regex).joins.alphabet.trans (alphabet_blank regex)

/-- The start promises the language of the expression, and the accepting state that nothing
follows. -/
def outset (regex : Regex) : String → Language String :=
  Function.update (fun _ => 1) supply.fresh (regex.language .letters)

theorem outset_head (regex : Regex) : outset regex supply.fresh = regex.language .letters :=
  Function.update_self ..

theorem outset_tail (regex : Regex) : outset regex supply.advance.fresh = 1 :=
  Function.update_of_ne (by decide) ..

theorem keeps_outset (regex : Regex) : (blank regex).Keeps (outset regex) :=
  fun state _ _ edge => absurd edge (not_mem_edges_blank regex state _)

theorem accepts_synthesise_iff {regex : Regex} {word : List String} :
    (synthesise regex).result.Accepts word ↔ regex.MatchesSymbols word := by
  have joins := (wired_synthesise regex).joins
  have starting : (synthesise regex).result.starting = supply.fresh :=
    joins.starting.trans (starting_blank regex)
  have accepting {state : String} :
      state ∈ (synthesise regex).result.accepting ↔ state = supply.advance.fresh := by
    rw [result_synthesise, joins.accepting]
    exact mem_accepting_blank
  rw [Automaton.Accepts, starting]
  constructor
  · rintro ⟨target, accepted, path⟩
    cases accepting.mp accepted
    have bounded : regex.language .letters * 1 ≤ outset regex supply.fresh := by
      rw [mul_one, outset_head]
    rcases joins.promises (outset regex) 1 (keeps_outset regex) (fun _ => outset_tail regex)
      bounded with ⟨extended, agrees, kept, ends⟩
    have spelled := kept.append_mem path (ends ▸ Language.nil_mem_one)
    rw [List.append_nil, agrees _ (mem_states_blank.mpr (.inr rfl)), outset_head] at spelled
    exact spelled
  · exact fun holds => ⟨_, accepting.mpr rfl, joins.path word holds⟩

/-! ## Texts -/

theorem unambiguous_of_single {symbols : List String}
    (single : ∀ symbol, symbol ∈ symbols → symbol.length = 1) :
    Text.Unambiguous (symbols.map String.toList) := by
  intro first inFirst _ second inSecond begins
  rcases List.mem_map.mp inFirst with ⟨left, declaredLeft, rfl⟩
  rcases List.mem_map.mp inSecond with ⟨right, declaredRight, rfl⟩
  refine begins.eq_of_length ?_
  rw [String.length_toList, String.length_toList, single left declaredLeft,
    single right declaredRight]

theorem acceptsText_synthesise {regex : Regex} (closed : regex.references = [])
    (single : ∀ name, name ∈ regex.names → name.length = 1) (text : String) :
    (synthesise regex).result.acceptsText text = regex.test text := by
  have listed {name : String} : name ∈ regex.symbols.toList ↔ name ∈ regex.names :=
    SortedSet.mem_toList.trans SortedSet.mem_ofList
  rw [Bool.eq_iff_iff, Automaton.acceptsText, Automaton.split, alphabet_synthesise,
    Automaton.accepts_iff, accepts_synthesise_iff, test_iff]
  constructor
  · intro holds
    rw [← Text.flatMap_split regex.symbols.toList text]
    exact matchesText_spelled holds closed
  · intro holds
    rcases exists_spelled holds with ⟨word, inWords, whole⟩
    rwa [Text.split_of_flatMap (unambiguous_of_single fun name member =>
      single name (listed.mp member)) (fun name member => ?_) whole]
    have named := mem_names_of_matches inWords member
    refine ⟨listed.mpr named, ?_⟩
    rintro rfl
    exact absurd (single "" named) (by decide)

end Regex.Synthesis

namespace Regex

/-- The automaton built from an expression is valid and accepts the words that the
expression describes. If all symbols are single characters and there are no references, it
accepts the same texts as well. -/
theorem synthesise_preserves_language (regex : Regex) :
    (synthesise regex).result.isValid = true ∧
      (∀ word, (synthesise regex).result.accepts word = true ↔ regex.MatchesSymbols word) ∧
      (regex.references = [] → (∀ name, name ∈ regex.names → name.length = 1) →
        ∀ text, (synthesise regex).result.acceptsText text = regex.test text) :=
  ⟨Automaton.isValid_iff.mpr (Synthesis.valid_synthesise regex),
    fun _ => Automaton.accepts_iff.trans Synthesis.accepts_synthesise_iff,
    Synthesis.acceptsText_synthesise⟩

/-- Stars of expressions that match the empty word, and nothing at all in a sequence. -/
def nestedStars : Regex :=
  sequence (star (alternative (star (symbol "x")) (sequence nil (symbol "y"))))
    (alternative (sequence empty (symbol "x")) (star (star nil)))

theorem synthesise_nestedStars :
    nestedStars.references = [] ∧ (∀ name, name ∈ nestedStars.names → name.length = 1) ∧
      (synthesise nestedStars).result.isValid = true ∧
      (∀ word, (synthesise nestedStars).result.accepts word = true ↔
        nestedStars.MatchesSymbols word) ∧
      ∀ text, (synthesise nestedStars).result.acceptsText text = nestedStars.test text :=
  have closed : nestedStars.references = [] := rfl
  have single : ∀ name, name ∈ nestedStars.names → name.length = 1 := by decide
  have preserved := synthesise_preserves_language nestedStars
  ⟨closed, single, preserved.1, preserved.2.1, preserved.2.2 closed single⟩

end Regex

end FormalLanguages
