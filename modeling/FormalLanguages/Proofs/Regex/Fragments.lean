import FormalLanguages.Proofs.Automaton.Promises
import FormalLanguages.Proofs.Name.Freshness
import FormalLanguages.Proofs.Regex.Languages
import FormalLanguages.Regex.Synthesis

namespace FormalLanguages

/-! # Fragments of an automaton

Between two states a fragment spells the words of a language. That it spells no others is
said by promises: whatever the states promised before the fragment was added, the new
states can promise something as well, so that the new edges keep it. -/

open scoped Computability

namespace Regex.Synthesis

variable {automaton before middle after : Automaton} {supply : Name.Supply}
  {head tail : String} {first second language : Language String}

/-- All states have numbers, and the numbers of the supply are not used yet. -/
structure Ready (automaton : Automaton) (supply : Name.Supply) : Prop where
  valid : automaton.Valid
  numbers : ∀ state, state ∈ automaton.states →
    ∃ number, number < supply.next ∧ state = Name.numbered supply.stem number

theorem Ready.fresh_not_mem (ready : Ready automaton supply) :
    ¬ supply.fresh ∈ automaton.states := by
  intro member
  rcases ready.numbers _ member with ⟨number, used, same⟩
  exact Nat.ne_of_gt used (Name.numbered_injective same)

theorem Ready.declare (ready : Ready automaton supply) :
    Ready (automaton.declareState supply.fresh) supply.advance where
  valid := {
    starting := (Automaton.mem_states_declareState ..).mpr (.inr ready.valid.starting)
    accepting := fun state member =>
      (Automaton.mem_states_declareState ..).mpr (.inr (ready.valid.accepting state member))
    symbols := by
      intro state symbol target edge
      rw [Automaton.edges_declareState] at edge
      exact ready.valid.symbols state symbol target edge
    targets := by
      intro state label target edge
      rw [Automaton.edges_declareState] at edge
      exact (Automaton.mem_states_declareState ..).mpr
        (.inr (ready.valid.targets state label target edge)) }
  numbers := by
    intro state member
    rcases (Automaton.mem_states_declareState ..).mp member with rfl | member
    · exact ⟨supply.next, Nat.lt_succ_self _, rfl⟩
    · rcases ready.numbers state member with ⟨number, used, same⟩
      exact ⟨number, Nat.lt_succ_of_lt used, same⟩

/-- Where only states and edges are added. -/
structure Grows (before after : Automaton) : Prop where
  starting : after.starting = before.starting
  accepting : after.accepting = before.accepting
  alphabet : after.alphabet = before.alphabet
  states : ∀ state, state ∈ before.states → state ∈ after.states
  edges : ∀ state edge, edge ∈ before.edges state → edge ∈ after.edges state

theorem Grows.refl (automaton : Automaton) : Grows automaton automaton :=
  ⟨rfl, rfl, rfl, fun _ => id, fun _ _ => id⟩

theorem Grows.trans (grows : Grows before middle) (next : Grows middle after) :
    Grows before after where
  starting := next.starting.trans grows.starting
  accepting := next.accepting.trans grows.accepting
  alphabet := next.alphabet.trans grows.alphabet
  states state member := next.states state (grows.states state member)
  edges state edge member := next.edges state edge (grows.edges state edge member)

theorem grows_declareState (automaton : Automaton) (state : String) :
    Grows automaton (automaton.declareState state) where
  starting := rfl
  accepting := rfl
  alphabet := rfl
  states _ member := (Automaton.mem_states_declareState ..).mpr (.inr member)
  edges _ _ member := by rwa [Automaton.edges_declareState]

/-- An edge may be added between declared states, for a declared symbol. -/
structure Fits (automaton : Automaton) (source : String) (label : Label) (target : String) :
    Prop where
  source : source ∈ automaton.states
  target : target ∈ automaton.states
  symbol : ∀ name, label = .symbol name → name ∈ automaton.alphabet

theorem Fits.grows {source target : String} {label : Label}
    (fits : Fits automaton source label target) :
    Grows automaton (automaton.withTransition source label target) where
  starting := by cases label <;> rfl
  accepting := by cases label <;> rfl
  alphabet := by
    refine SortedSet.ext fun symbol => (Automaton.mem_alphabet_withTransition ..).trans ?_
    exact or_iff_right_of_imp (fits.symbol symbol)
  states _ member := (Automaton.mem_states_withTransition ..).mpr (.inr (.inr member))
  edges _ _ member := (Automaton.mem_edges_withTransition ..).mpr (.inr member)

theorem Ready.connect {source target : String} {label : Label} (ready : Ready automaton supply)
    (fits : Fits automaton source label target) :
    Ready (automaton.withTransition source label target) supply := by
  have grows := fits.grows
  have states {state : String} :
      state ∈ (automaton.withTransition source label target).states ↔ state ∈ automaton.states := by
    rw [Automaton.mem_states_withTransition]
    constructor
    · rintro (rfl | rfl | member)
      · exact fits.source
      · exact fits.target
      · exact member
    · exact fun member => .inr (.inr member)
  refine ⟨⟨?_, fun state member => ?_, fun state symbol last edge => ?_,
    fun state other last edge => ?_⟩, fun state member => ready.numbers state (states.mp member)⟩
  · exact grows.starting ▸ grows.states _ ready.valid.starting
  · exact grows.states _ (ready.valid.accepting state (grows.accepting ▸ member))
  · rw [grows.alphabet]
    rcases (Automaton.mem_edges_withTransition ..).mp edge with ⟨_, same⟩ | edge
    · cases same
      exact fits.symbol symbol rfl
    · exact ready.valid.symbols state symbol last edge
  · rcases (Automaton.mem_edges_withTransition ..).mp edge with ⟨_, same⟩ | edge
    · cases same
      exact grows.states _ fits.target
    · exact grows.states _ (ready.valid.targets state other last edge)

/-! ## What a fragment spells -/

/-- The target may be new. What follows it is given, and so is what it promises if it is
not new. -/
structure Joins (language : Language String) (head tail : String) (before after : Automaton) :
    Prop extends Grows before after where
  declared : tail ∈ after.states
  path : ∀ word, word ∈ language → after.Path head word tail
  promises : ∀ promise rest, before.Keeps promise →
    (tail ∈ before.states → promise tail = rest) → language * rest ≤ promise head →
    ∃ extended, (∀ state, state ∈ before.states → extended state = promise state) ∧
      after.Keeps extended ∧ extended tail = rest

theorem joins_nothing (declared : tail ∈ automaton.states) : Joins 0 head tail automaton automaton where
  toGrows := .refl automaton
  declared := declared
  path _ none := absurd none (Language.notMem_zero _)
  promises promise _ keeps same _ := ⟨promise, fun _ _ => rfl, keeps, same declared⟩

theorem Fits.joins {label : Label} (fits : Fits automaton head label tail) :
    Joins label.language head tail automaton (automaton.withTransition head label tail) where
  toGrows := fits.grows
  declared := fits.grows.states tail fits.target
  path word member := by
    have edge : Edge.mk label tail ∈ (automaton.withTransition head label tail).edges head :=
      (Automaton.mem_edges_withTransition ..).mpr (.inl ⟨rfl, rfl⟩)
    cases label with
    | epsilon => exact (Language.mem_one word).mp member ▸ .skip edge (.stay tail)
    | symbol name =>
        have same : word = [name] := member
        exact same ▸ .consume edge (.stay tail)
  promises promise rest keeps same bounded := by
    have equal := same fits.target
    exact ⟨promise, fun _ _ => rfl, Automaton.keeps_withTransition.mpr ⟨keeps, equal ▸ bounded⟩,
      equal⟩

theorem Joins.sequence {between : String} (left : Joins first head between before middle)
    (right : Joins second between tail middle after) (new : ¬ between ∈ before.states)
    (old : tail ∈ middle.states → tail ∈ before.states) :
    Joins (first * second) head tail before after where
  toGrows := left.toGrows.trans right.toGrows
  declared := right.declared
  path word member := by
    rcases Language.mem_mul.mp member with ⟨start, inFirst, rest, inSecond, rfl⟩
    exact ((left.path start inFirst).mono right.edges).append (right.path rest inSecond)
  promises promise rest keeps same bounded := by
    rw [mul_assoc] at bounded
    rcases left.promises promise (second * rest) keeps (fun old => absurd old new) bounded with
      ⟨extended, agrees, kept, equal⟩
    have known : tail ∈ middle.states → extended tail = rest := fun inMiddle =>
      (agrees tail (old inMiddle)).trans (same (old inMiddle))
    rcases right.promises extended rest kept known (Eq.le equal.symm) with
      ⟨further, continues, kept, equal⟩
    refine ⟨further, fun state member => ?_, kept, equal⟩
    exact (continues state (left.states state member)).trans (agrees state member)

theorem Joins.alternative (left : Joins first head tail before middle)
    (right : Joins second head tail middle after) (declared : head ∈ before.states) :
    Joins (first + second) head tail before after where
  toGrows := left.toGrows.trans right.toGrows
  declared := right.declared
  path word member := by
    rcases (Language.mem_add ..).mp member with inFirst | inSecond
    · exact (left.path word inFirst).mono right.edges
    · exact right.path word inSecond
  promises promise rest keeps same bounded := by
    rw [add_mul] at bounded
    rcases left.promises promise rest keeps same (le_trans le_self_add bounded) with
      ⟨extended, agrees, kept, equal⟩
    have remains : second * rest ≤ extended head := by
      rw [agrees head declared]
      exact le_trans le_add_self bounded
    rcases right.promises extended rest kept (fun _ => equal) remains with
      ⟨further, continues, kept, equal⟩
    refine ⟨further, fun state member => ?_, kept, equal⟩
    exact (continues state (left.states state member)).trans (agrees state member)

/-- A fragment to a new state may also be seen as beginning before that state is declared. -/
theorem Joins.undeclared (ready : Ready automaton supply) (fromHead : head ∈ automaton.states)
    (joins : Joins language head supply.fresh (automaton.declareState supply.fresh) after) :
    Joins language head supply.fresh automaton after where
  toGrows := (grows_declareState automaton _).trans joins.toGrows
  declared := joins.declared
  path := joins.path
  promises promise rest keeps _ bounded := by
    have new := ready.fresh_not_mem
    have atHead : Function.update promise supply.fresh rest head = promise head :=
      Function.update_of_ne (ne_of_mem_of_not_mem fromHead new) ..
    rcases joins.promises _ rest (keeps.update ready.valid new rest)
      (fun _ => Function.update_self ..) (atHead.symm ▸ bounded) with ⟨extended, agrees, kept, equal⟩
    refine ⟨extended, fun state member => ?_, kept, equal⟩
    rw [agrees state ((grows_declareState automaton _).states state member),
      Function.update_of_ne (ne_of_mem_of_not_mem member new)]

/-! ## Fragments between two new states -/

def withEnds (automaton : Automaton) (supply : Name.Supply) : Automaton :=
  (automaton.declareState supply.fresh).declareState supply.advance.fresh

theorem Ready.withEnds (ready : Ready automaton supply) :
    Ready (withEnds automaton supply) supply.advance.advance :=
  ready.declare.declare

theorem grows_withEnds (automaton : Automaton) (supply : Name.Supply) :
    Grows automaton (withEnds automaton supply) :=
  (grows_declareState automaton _).trans (grows_declareState _ _)

theorem head_mem_withEnds : supply.fresh ∈ (withEnds automaton supply).states :=
  (Automaton.mem_states_declareState ..).mpr
    (.inr ((Automaton.mem_states_declareState ..).mpr (.inl rfl)))

theorem tail_mem_withEnds : supply.advance.fresh ∈ (withEnds automaton supply).states :=
  (Automaton.mem_states_declareState ..).mpr (.inl rfl)

theorem Ready.promises_withEnds (ready : Ready automaton supply)
    {promise : String → Language String} (keeps : automaton.Keeps promise)
    (start rest : Language String) :
    ∃ extended, (∀ state, state ∈ automaton.states → extended state = promise state) ∧
      (Synthesis.withEnds automaton supply).Keeps extended ∧
      extended supply.fresh = start ∧ extended supply.advance.fresh = rest := by
  have kept := keeps.update ready.valid ready.fresh_not_mem start
  refine ⟨_, fun state member => ?_,
    kept.update ready.declare.valid ready.declare.fresh_not_mem rest, ?_, ?_⟩
  · have old := (grows_declareState automaton supply.fresh).states state member
    rw [Function.update_of_ne (ne_of_mem_of_not_mem old ready.declare.fresh_not_mem),
      Function.update_of_ne (ne_of_mem_of_not_mem member ready.fresh_not_mem)]
  · have declared : supply.fresh ∈ (automaton.declareState supply.fresh).states :=
      (Automaton.mem_states_declareState ..).mpr (.inl rfl)
    rw [Function.update_of_ne (ne_of_mem_of_not_mem declared ready.declare.fresh_not_mem),
      Function.update_self]
  · rw [Function.update_self]

/-! Fragments are linked to other states by edges that consume nothing. -/

def skips (automaton : Automaton) (links : List (String × String)) : Automaton :=
  links.foldl (fun automaton link => automaton.withTransition link.1 .epsilon link.2) automaton

theorem ready_skips {links : List (String × String)} (ready : Ready automaton supply)
    (declared : ∀ source target, (source, target) ∈ links →
      source ∈ automaton.states ∧ target ∈ automaton.states) :
    Grows automaton (skips automaton links) ∧ Ready (skips automaton links) supply := by
  refine List.foldlRecOn (motive := fun built => Grows automaton built ∧ Ready built supply)
    links _ ⟨.refl automaton, ready⟩ ?_
  rintro built ⟨grows, ready⟩ ⟨source, target⟩ member
  rcases declared source target member with ⟨first, last⟩
  have fits : Fits built source .epsilon target :=
    ⟨grows.states source first, grows.states target last, nofun⟩
  exact ⟨grows.trans fits.grows, ready.connect fits⟩

theorem keeps_skips {links : List (String × String)} {promise : String → Language String}
    (keeps : automaton.Keeps promise)
    (linked : ∀ source target, (source, target) ∈ links → promise target ≤ promise source) :
    (skips automaton links).Keeps promise := by
  refine List.foldlRecOn (motive := fun built : Automaton => built.Keeps promise) links _ keeps ?_
  rintro built kept ⟨source, target⟩ member
  refine Automaton.keeps_withTransition.mpr ⟨kept, ?_⟩
  rw [Label.language, one_mul]
  exact linked source target member

theorem mem_edges_skips {links : List (String × String)} {state : String} {edge : Edge} :
    edge ∈ (skips automaton links).edges state ↔
      (∃ link, link ∈ links ∧ (state = link.1 ∧ edge = ⟨.epsilon, link.2⟩)) ∨
        edge ∈ automaton.edges state :=
  foldl_iff (fun built : Automaton => edge ∈ built.edges state)
    (fun link : String × String => state = link.1 ∧ edge = ⟨.epsilon, link.2⟩)
    (fun _ _ => Automaton.mem_edges_withTransition ..) links automaton

theorem path_of_link {links : List (String × String)} {source target : String}
    (member : (source, target) ∈ links) : (skips automaton links).Path source [] target :=
  .skip (mem_edges_skips.mpr (.inl ⟨_, member, rfl, rfl⟩)) (.stay target)

/-- A fragment between two new states is entered from one state and left for another. -/
def outerLinks (supply : Name.Supply) (head tail : String) : List (String × String) :=
  [(head, supply.fresh), (supply.advance.fresh, tail)]

/-- It may also be passed by or gone through again. -/
def loopLinks (supply : Name.Supply) (head tail : String) : List (String × String) :=
  outerLinks supply head tail ++ [(head, tail), (supply.advance.fresh, supply.fresh)]

theorem mem_outerLinks {source target : String} :
    (source, target) ∈ outerLinks supply head tail ↔
      (source = head ∧ target = supply.fresh) ∨
        (source = supply.advance.fresh ∧ target = tail) := by
  simp [outerLinks]

theorem mem_loopLinks {source target : String} :
    (source, target) ∈ loopLinks supply head tail ↔
      (source, target) ∈ outerLinks supply head tail ∨ (source = head ∧ target = tail) ∨
        (source = supply.advance.fresh ∧ target = supply.fresh) := by
  simp [loopLinks]

section Enclosed

variable {filled : Automaton}
  (inner : Joins language supply.fresh supply.advance.fresh (withEnds automaton supply) filled)

include inner

theorem Joins.promises_skips (ready : Ready automaton supply) {promise : String → Language String}
    (keeps : automaton.Keeps promise) {start rest : Language String}
    (bounded : language * rest ≤ start) {links : List (String × String)}
    (linked : ∀ extended : String → Language String,
      (∀ state, state ∈ automaton.states → extended state = promise state) →
      extended supply.fresh = start → extended supply.advance.fresh = rest →
      ∀ source target, (source, target) ∈ links → extended target ≤ extended source) :
    ∃ extended, (∀ state, state ∈ automaton.states → extended state = promise state) ∧
      (skips filled links).Keeps extended := by
  rcases ready.promises_withEnds keeps start rest with ⟨opened, agrees, kept, atHead, atTail⟩
  rcases inner.promises opened rest kept (fun _ => atTail) (atHead ▸ bounded) with
    ⟨extended, continues, kept, atTail⟩
  have whole : ∀ state, state ∈ automaton.states → extended state = promise state := by
    intro state member
    have opens := (grows_withEnds automaton supply).states state member
    exact (continues state opens).trans (agrees state member)
  have atHead : extended supply.fresh = start := (continues _ head_mem_withEnds).trans atHead
  exact ⟨extended, whole, keeps_skips kept (linked extended whole atHead atTail)⟩

variable (fromHead : head ∈ automaton.states) (toTail : tail ∈ automaton.states)
  {later : Name.Supply} (filledReady : Ready filled later)

include fromHead toTail filledReady

theorem Joins.ready_skips {links : List (String × String)}
    (among : links ⊆ loopLinks supply head tail) :
    Grows automaton (skips filled links) ∧ Ready (skips filled links) later := by
  have outer := (grows_withEnds automaton supply).trans inner.toGrows
  have built : Grows filled (skips filled links) ∧ Ready (skips filled links) later := by
    refine Synthesis.ready_skips filledReady fun source target member => ?_
    have fromHead := outer.states head fromHead
    have toTail := outer.states tail toTail
    have innerHead := inner.states _ head_mem_withEnds
    have innerTail := inner.states _ tail_mem_withEnds
    rcases mem_loopLinks.mp (among member) with outer | ⟨rfl, rfl⟩ | ⟨rfl, rfl⟩
    · rcases mem_outerLinks.mp outer with ⟨rfl, rfl⟩ | ⟨rfl, rfl⟩
      · exact ⟨fromHead, innerHead⟩
      · exact ⟨innerTail, toTail⟩
    · exact ⟨fromHead, toTail⟩
    · exact ⟨innerTail, innerHead⟩
  exact ⟨outer.trans built.1, built.2⟩

omit toTail fromHead filledReady in
theorem Joins.path_skips (links : List (String × String)) {word : List String}
    (member : word ∈ language) :
    (skips filled links).Path supply.fresh word supply.advance.fresh :=
  (inner.path word member).mono fun _ _ edge => mem_edges_skips.mpr (.inr edge)

theorem Joins.enclosed (ready : Ready automaton supply) :
    Joins language head tail automaton (skips filled (outerLinks supply head tail)) := by
  rcases inner.ready_skips fromHead toTail filledReady (List.subset_append_left _ _) with
    ⟨grows, _⟩
  refine ⟨grows, grows.states tail toTail, fun word member => ?_,
    fun promise rest keeps same bounded => ?_⟩
  · have entry : (head, supply.fresh) ∈ outerLinks supply head tail :=
      mem_outerLinks.mpr (.inl ⟨rfl, rfl⟩)
    have exit : (supply.advance.fresh, tail) ∈ outerLinks supply head tail :=
      mem_outerLinks.mpr (.inr ⟨rfl, rfl⟩)
    exact (path_of_link entry).append ((inner.path_skips _ member).trans (path_of_link exit))
  · have linked (extended : String → Language String)
        (agrees : ∀ state, state ∈ automaton.states → extended state = promise state)
        (atHead : extended supply.fresh = language * rest)
        (atTail : extended supply.advance.fresh = rest) (source target : String)
        (member : (source, target) ∈ outerLinks supply head tail) :
        extended target ≤ extended source := by
      rcases mem_outerLinks.mp member with ⟨rfl, rfl⟩ | ⟨rfl, rfl⟩
      · rw [atHead, agrees _ fromHead]
        exact bounded
      · rw [atTail, agrees _ toTail, same toTail]
    rcases inner.promises_skips ready keeps (le_refl (language * rest)) linked with
      ⟨extended, agrees, kept⟩
    exact ⟨extended, agrees, kept, (agrees tail toTail).trans (same toTail)⟩

omit fromHead toTail filledReady in
theorem Joins.path_rounds {pieces : List (List String)}
    (all : ∀ piece, piece ∈ pieces → piece ∈ language) :
    (skips filled (loopLinks supply head tail)).Path supply.advance.fresh pieces.flatten
      supply.advance.fresh := by
  have back : (supply.advance.fresh, supply.fresh) ∈ loopLinks supply head tail :=
    mem_loopLinks.mpr (.inr (.inr ⟨rfl, rfl⟩))
  induction pieces with
  | nil => exact .stay _
  | cons first others induction =>
      have once := inner.path_skips (loopLinks supply head tail) (all first List.mem_cons_self)
      have more := induction fun piece member => all piece (List.mem_cons_of_mem first member)
      exact (path_of_link back).append (once.append more)

omit fromHead toTail filledReady in
theorem Joins.path_loop {pieces : List (List String)}
    (all : ∀ piece, piece ∈ pieces → piece ∈ language) :
    (skips filled (loopLinks supply head tail)).Path head pieces.flatten tail := by
  cases pieces with
  | nil => exact path_of_link (mem_loopLinks.mpr (.inr (.inl ⟨rfl, rfl⟩)))
  | cons first others =>
      have entry : (head, supply.fresh) ∈ loopLinks supply head tail :=
        mem_loopLinks.mpr (.inl (mem_outerLinks.mpr (.inl ⟨rfl, rfl⟩)))
      have exit : (supply.advance.fresh, tail) ∈ loopLinks supply head tail :=
        mem_loopLinks.mpr (.inl (mem_outerLinks.mpr (.inr ⟨rfl, rfl⟩)))
      have once := inner.path_skips (loopLinks supply head tail) (all first List.mem_cons_self)
      have more : (skips filled (loopLinks supply head tail)).Path supply.advance.fresh
          others.flatten supply.advance.fresh :=
        inner.path_rounds fun piece member => all piece (List.mem_cons_of_mem first member)
      exact (path_of_link entry).append (once.append (more.trans (path_of_link exit)))

theorem Joins.star (ready : Ready automaton supply) :
    Joins language∗ head tail automaton (skips filled (loopLinks supply head tail)) := by
  rcases inner.ready_skips fromHead toTail filledReady (List.Subset.refl _) with ⟨grows, _⟩
  refine ⟨grows, grows.states tail toTail, fun word member => ?_,
    fun promise rest keeps same bounded => ?_⟩
  · rcases Language.mem_kstar.mp member with ⟨pieces, rfl, all⟩
    exact inner.path_loop all
  · have linked (extended : String → Language String)
        (agrees : ∀ state, state ∈ automaton.states → extended state = promise state)
        (atHead : extended supply.fresh = language∗ * rest)
        (atTail : extended supply.advance.fresh = language∗ * rest) (source target : String)
        (member : (source, target) ∈ loopLinks supply head tail) :
        extended target ≤ extended source := by
      have some : rest ≤ language∗ * rest := by
        have none := mul_le_mul_left (one_le_kstar (a := language)) rest
        rwa [one_mul] at none
      rcases mem_loopLinks.mp member with outer | ⟨rfl, rfl⟩ | ⟨rfl, rfl⟩
      · rcases mem_outerLinks.mp outer with ⟨rfl, rfl⟩ | ⟨rfl, rfl⟩
        · rw [atHead, agrees _ fromHead]
          exact bounded
        · rw [atTail, agrees _ toTail, same toTail]
          exact some
      · rw [agrees _ toTail, same toTail, agrees _ fromHead]
        exact le_trans some bounded
      · rw [atHead, atTail]
    -- Both inner ends promise any number of rounds, so the edge back asks for nothing more.
    have once : language * (language∗ * rest) ≤ language∗ * rest := by
      rw [← mul_assoc]
      exact mul_le_mul_left mul_kstar_le_kstar rest
    rcases inner.promises_skips ready keeps once linked with ⟨extended, agrees, kept⟩
    exact ⟨extended, agrees, kept, (agrees tail toTail).trans (same toTail)⟩

end Enclosed

end Regex.Synthesis

end FormalLanguages
