import FormalLanguages.Proofs.Automaton.Renaming

namespace FormalLanguages.Automaton

open StateEquivalence

/-! # There is one smallest automaton

Two complete automata in which all states are reached and no two are alike differ in the names
of their states only, if they accept the same words: a state is named after the one state that
the same words lead to in the other automaton. -/

variable {automaton other left right : Automaton} {name : String → String} {state : String}

/-! ## States that the same words lead to -/

theorem Meet.mem_states {partner : String} (meet : automaton.Meet other state partner)
    (valid : automaton.Valid) : state ∈ automaton.states :=
  let ⟨_, path, _⟩ := meet
  valid.mem_states_of_path path valid.starting

section Partners

variable (total : automaton.Total) (otherTotal : other.Total)
  (same : ∀ word, other.Accepts word ↔ automaton.Accepts word)

include total otherTotal same

theorem Meet.unique {first second : String} (reduced : other.Reduced)
    (meetFirst : automaton.Meet other state first)
    (meetSecond : automaton.Meet other state second) : first = second :=
  reduced first second (meetFirst.symm.mem_states otherTotal.valid)
    (meetSecond.symm.mem_states otherTotal.valid)
    (meetFirst.symm.alike otherTotal total (fun word => (same word).symm) meetSecond.symm)

theorem Meet.mem_accepting_iff {partner : String} (meet : automaton.Meet other state partner) :
    partner ∈ other.accepting ↔ state ∈ automaton.accepting := by
  rw [← otherTotal.deterministic.acceptsFrom_nil_iff, ← total.deterministic.acceptsFrom_nil_iff]
  exact meet.acceptsFrom_iff total otherTotal same

section Named

variable (alphabet : other.alphabet = automaton.alphabet) (otherReached : other.Reached)
  (otherReduced : other.Reduced)
  (meets : ∀ state, state ∈ automaton.states → automaton.Meet other state (name state))

include alphabet otherReached otherReduced meets

theorem exists_named (declared : state ∈ other.states) :
    ∃ member, automaton.Meet other member state ∧ state = name member := by
  rcases exists_meet otherTotal total otherReached alphabet.symm declared with
    ⟨member, inside, meet⟩
  exact ⟨member, meet.symm, meet.symm.unique total otherTotal same otherReduced (meets member inside)⟩

theorem mem_edges_named {edge : Edge} : edge ∈ other.edges state ↔
    ∃ member label target, Edge.mk label target ∈ automaton.edges member ∧ state = name member ∧
      edge = ⟨label, name target⟩ := by
  constructor
  · intro member
    rcases edge with ⟨epsilon | symbol, target⟩
    · exact absurd member (otherTotal.deterministic.loud _ _)
    rcases exists_named total otherTotal same alphabet otherReached otherReduced meets
      (mem_states_of_edge member) with ⟨source, meet, named⟩
    rcases total.edge source (meet.mem_states total.valid) symbol
      (alphabet ▸ otherTotal.valid.symbols _ _ _ member) with ⟨next, edge⟩
    have follows := (meet.consume edge member).unique total otherTotal same otherReduced
      (meets next (total.valid.targets _ _ _ edge))
    exact ⟨source, .symbol symbol, next, edge, named, follows ▸ rfl⟩
  · rintro ⟨source, _ | symbol, next, edge, rfl, rfl⟩
    · exact absurd edge (total.deterministic.loud _ _)
    have meet := meets source (mem_states_of_edge edge)
    rcases otherTotal.edge _ (meet.symm.mem_states otherTotal.valid) symbol
      (alphabet ▸ total.valid.symbols _ _ _ edge) with ⟨target, member⟩
    have follows := (meet.consume edge member).unique total otherTotal same otherReduced
      (meets next (total.valid.targets _ _ _ edge))
    exact follows ▸ member

theorem merges_named : Minimal.Merges automaton other name where
  starting := meet_starting.unique total otherTotal same otherReduced (meets _ total.valid.starting)
  alphabet := alphabet
  states state := by
    constructor
    · intro declared
      rcases exists_named total otherTotal same alphabet otherReached otherReduced meets declared
        with ⟨member, meet, named⟩
      exact ⟨member, meet.mem_states total.valid, named⟩
    · rintro ⟨member, declared, rfl⟩
      exact (meets member declared).symm.mem_states otherTotal.valid
  accepting state := by
    constructor
    · intro accepting
      rcases exists_named total otherTotal same alphabet otherReached otherReduced meets
        (otherTotal.valid.accepting state accepting) with ⟨member, meet, named⟩
      exact ⟨member, (meet.mem_accepting_iff total otherTotal same).mp accepting, named⟩
    · rintro ⟨member, accepting, rfl⟩
      have meet := meets member (total.valid.accepting member accepting)
      exact (meet.mem_accepting_iff total otherTotal same).mpr accepting
  edges _ _ := mem_edges_named total otherTotal same alphabet otherReached otherReduced meets
  alike first second inFirst inSecond := by
    have meetFirst := meets first inFirst
    have meetSecond := meets second inSecond
    constructor
    · intro equal
      exact meetFirst.alike total otherTotal same (equal ▸ meetSecond)
    · refine fun alike => otherReduced _ _ (meetFirst.symm.mem_states otherTotal.valid)
        (meetSecond.symm.mem_states otherTotal.valid) fun word => ?_
      rw [meetFirst.acceptsFrom_iff total otherTotal same,
        meetSecond.acceptsFrom_iff total otherTotal same]
      exact alike word

end Named

/-- A reduced automaton is a merge of every other one for the same words. -/
theorem exists_merges (reached : automaton.Reached) (otherReached : other.Reached)
    (otherReduced : other.Reduced) (alphabet : other.alphabet = automaton.alphabet) :
    ∃ name, Minimal.Merges automaton other name := by
  have partners (state : String) (declared : state ∈ automaton.states) :
      ∃ partner, automaton.Meet other state partner :=
    (exists_meet total otherTotal reached alphabet declared).imp fun _ => And.right
  choose! name meets using partners
  exact ⟨name, merges_named total otherTotal same alphabet otherReached otherReduced meets⟩

end Partners

/-! ## Merges in which nothing is merged -/

section Reduced

variable (merges : Minimal.Merges automaton other name) (reduced : automaton.Reduced)

include merges reduced

theorem Minimal.Merges.bijOn :
    Set.BijOn name {state | state ∈ automaton.states} {state | state ∈ other.states} := by
  refine ⟨?_, ?_, ?_⟩
  · exact fun state declared => (merges.states _).mpr ⟨state, declared, rfl⟩
  · exact fun first inFirst second inSecond same =>
      reduced first second inFirst inSecond ((merges.alike first second inFirst inSecond).mp same)
  · intro state declared
    rcases (merges.states state).mp declared with ⟨member, inside, rfl⟩
    exact ⟨member, inside, rfl⟩

theorem Minimal.Merges.rename_eq : automaton.rename name = other :=
  (merges_rename (merges.bijOn reduced).injOn reduced).unique merges

end Reduced

/-! ## Smallest automata -/

theorem Smallest.isomorphic_iff (smallest : automaton.Smallest) (otherSmallest : other.Smallest)
    (alphabet : other.alphabet = automaton.alphabet) :
    (∃ name : String → String,
      Set.BijOn name {state | state ∈ automaton.states} {state | state ∈ other.states} ∧
        automaton.rename name = other) ↔
      ∀ word, other.Accepts word ↔ automaton.Accepts word := by
  constructor
  · rintro ⟨name, bijection, rfl⟩ word
    exact (merges_rename bijection.injOn smallest.reduced).accepts_iff smallest.total
  · intro same
    rcases exists_merges smallest.total otherSmallest.total same smallest.reached
      otherSmallest.reached otherSmallest.reduced alphabet with ⟨name, merges⟩
    exact ⟨name, merges.bijOn smallest.reduced, merges.rename_eq smallest.reduced⟩

/-! ## Equivalence decides isomorphism -/

section Equivalent

variable (validLeft : left.isValid = true) (validRight : right.isValid = true)
  (deterministicLeft : left.isDeterministic = true)
  (deterministicRight : right.isDeterministic = true)

include validLeft validRight deterministicLeft deterministicRight

theorem equivalent_eq_ok_true_iff :
    equivalent left right = .ok true ↔ ∀ word, left.Accepts word ↔ right.Accepts word := by
  have table := crossEquivalence_eq validLeft validRight deterministicLeft deterministicRight
  have spans := spans_crossRefinement validLeft validRight deterministicLeft deterministicRight
  rcases Option.isSome_iff_exists.mp (spans.isSome_get?_iff.mpr
    ⟨(isValid_iff.mp validLeft).starting, (isValid_iff.mp validRight).starting⟩) with ⟨value, found⟩
  have verdict : equivalent left right = .ok value := by
    rw [equivalent, table, ← Option.getD_some (a := value) (b := false), ← found]
    rfl
  have exact := get?_crossRefinement validLeft validRight deterministicLeft deterministicRight found
  rw [verdict, Except.ok.injEq, exact]
  exact forall_congr' fun _ => accepts_eq_iff

end Equivalent

/-- Two valid deterministic automata over one alphabet, complete or not, are equivalent exactly
if their minimal automata are the same but for the names of the states. -/
theorem equivalent_iff_isomorphic (left right : Automaton)
    (validLeft : left.isValid = true) (validRight : right.isValid = true)
    (deterministicLeft : left.isDeterministic = true)
    (deterministicRight : right.isDeterministic = true)
    (alphabet : left.alphabet = right.alphabet) :
    ∃ first second, left.minimise = .ok first ∧ right.minimise = .ok second ∧
      (equivalent left right = .ok true ↔
        ∃ name : String → String,
          Set.BijOn name {state | state ∈ first.result.states}
            {state | state ∈ second.result.states} ∧
          first.result.rename name = second.result) := by
  refine ⟨Minimal.construct left, Minimal.construct right,
    minimise_eq validLeft deterministicLeft, minimise_eq validRight deterministicRight, ?_⟩
  have soundLeft := isValid_iff.mp validLeft
  have soundRight := isValid_iff.mp validRight
  have uniqueLeft := deterministic_iff.mp deterministicLeft
  have uniqueRight := deterministic_iff.mp deterministicRight
  have alphabets : (Minimal.construct right).result.alphabet =
      (Minimal.construct left).result.alphabet := by
    rw [Minimal.alphabet_construct soundLeft uniqueLeft,
      Minimal.alphabet_construct soundRight uniqueRight, alphabet]
  rw [equivalent_eq_ok_true_iff validLeft validRight deterministicLeft deterministicRight,
    (Minimal.smallest_construct soundLeft uniqueLeft).isomorphic_iff
      (Minimal.smallest_construct soundRight uniqueRight) alphabets]
  refine forall_congr' fun word => ?_
  rw [Minimal.accepts_construct_iff soundLeft uniqueLeft,
    Minimal.accepts_construct_iff soundRight uniqueRight]
  exact Iff.comm

/-- At least one `x` and never a `y`; the edges for `y` are missing. -/
def withoutDeadState : Automaton :=
  ofRows "a" ["b", "c"] ["x", "y"]
    [("a", [(.symbol "x", ["b"])]), ("b", [(.symbol "x", ["c"])]), ("c", [(.symbol "x", ["b"])])]

/-- The same words, with a dead state of its own and a start state that is called like a sink. -/
def withDeadState : Automaton :=
  ofRows "∅" ["b"] ["x", "y"]
    [("∅", [(.symbol "x", ["b"]), (.symbol "y", ["a"])]),
      ("b", [(.symbol "x", ["b"]), (.symbol "y", ["a"])]),
      ("a", [(.symbol "x", ["a"]), (.symbol "y", ["a"])])]

theorem equivalent_iff_isomorphic_dead :
    withoutDeadState.isValid = true ∧ withDeadState.isValid = true ∧
      withoutDeadState.isDeterministic = true ∧ withDeadState.isDeterministic = true ∧
      withoutDeadState.alphabet = withDeadState.alphabet ∧
      ∃ first second, withoutDeadState.minimise = .ok first ∧ withDeadState.minimise = .ok second ∧
        (equivalent withoutDeadState withDeadState = .ok true ↔
          ∃ name : String → String,
            Set.BijOn name {state | state ∈ first.result.states}
              {state | state ∈ second.result.states} ∧
            first.result.rename name = second.result) :=
  ⟨by decide, by decide, by decide, by decide, by decide,
    equivalent_iff_isomorphic withoutDeadState withDeadState (by decide) (by decide) (by decide)
      (by decide) (by decide)⟩

end FormalLanguages.Automaton
