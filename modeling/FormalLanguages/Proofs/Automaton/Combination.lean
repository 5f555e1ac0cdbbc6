import FormalLanguages.Proofs.Automaton.Lockstep

namespace FormalLanguages.Automaton

/-! # Combining two automata

A combined automaton is described by its edges between the names of pairs. As long as
different pairs have different names, it accepts from the name of a pair what its members
accept together. -/

open Product

variable {acceptance : Acceptance} {left right built result : Automaton} {pair : Pair}
  {symbol state : String} {edge : Edge}

namespace Product

/-! ## What one pair adds -/

/-- The edge from a pair for one symbol, if both of its members have one. -/
def connect (left right : Automaton) (pair : Pair) (built : Automaton) (symbol : String) :
    Automaton :=
  match follow? left right pair symbol with
  | none => built
  | some target => built.withTransition (name pair) (.symbol symbol) (name target)

theorem expand_eq : expand acceptance left right built pair =
    left.alphabet.toList.foldl (connect left right pair)
      (if accepts acceptance left right pair then built.withAccepting (name pair) else built) :=
  rfl

theorem starting_expand :
    (expand acceptance left right built pair).starting = built.starting := by
  rw [expand_eq, foldl_keeps starting]
  · split <;> rfl
  · intro built symbol
    rw [connect]
    split <;> rfl

theorem mem_accepting_expand :
    state ∈ (expand acceptance left right built pair).accepting ↔
      (accepts acceptance left right pair = true ∧ state = name pair) ∨
        state ∈ built.accepting := by
  rw [expand_eq, foldl_keeps accepting]
  · split
    case isTrue accepts => rw [mem_accepting_withAccepting, and_iff_right accepts]
    case isFalse rejects => simp [rejects]
  · intro built symbol
    rw [connect]
    split <;> rfl

theorem mem_edges_connect : edge ∈ (connect left right pair built symbol).edges state ↔
    (state = name pair ∧ ∃ target, follow? left right pair symbol = some target ∧
      edge = ⟨.symbol symbol, name target⟩) ∨ edge ∈ built.edges state := by
  rw [connect]
  split
  case h_1 none => simp [none]
  case h_2 target found => simp [found, mem_edges_withTransition]

theorem mem_edges_expand : edge ∈ (expand acceptance left right built pair).edges state ↔
    (state = name pair ∧ ∃ symbol, symbol ∈ left.alphabet ∧ ∃ target,
      follow? left right pair symbol = some target ∧ edge = ⟨.symbol symbol, name target⟩) ∨
        edge ∈ built.edges state := by
  rw [expand_eq]
  refine (foldl_iff (fun built : Automaton => edge ∈ built.edges state)
    (fun symbol => state = name pair ∧ ∃ target, follow? left right pair symbol = some target ∧
      edge = ⟨.symbol symbol, name target⟩)
    (fun built symbol => mem_edges_connect) _ _).trans (or_congr ?_ ?_)
  · constructor
    · rintro ⟨symbol, member, same, found⟩
      exact ⟨same, symbol, SortedSet.mem_toList.mp member, found⟩
    · rintro ⟨same, symbol, member, found⟩
      exact ⟨symbol, SortedSet.mem_toList.mpr member, same, found⟩
  · split <;> simp

theorem mem_states_connect : state ∈ (connect left right pair built symbol).states ↔
    (∃ target, follow? left right pair symbol = some target ∧
      (state = name pair ∨ state = name target)) ∨ state ∈ built.states := by
  rw [connect]
  split
  case h_1 none => simp [none]
  case h_2 target found => simp [found, mem_states_withTransition, or_assoc]

theorem mem_states_expand : state ∈ (expand acceptance left right built pair).states ↔
    (∃ symbol, symbol ∈ left.alphabet ∧ ∃ target,
      follow? left right pair symbol = some target ∧
        (state = name pair ∨ state = name target)) ∨
      (accepts acceptance left right pair = true ∧ state = name pair) ∨
        state ∈ built.states := by
  rw [expand_eq]
  refine (foldl_iff (fun built : Automaton => state ∈ built.states)
    (fun symbol => ∃ target, follow? left right pair symbol = some target ∧
      (state = name pair ∨ state = name target))
    (fun built symbol => mem_states_connect) _ _).trans (or_congr ?_ ?_)
  · simp only [SortedSet.mem_toList]
  · split
    case isTrue accepts => rw [mem_states_withAccepting, and_iff_right accepts]
    case isFalse rejects => simp [rejects]

theorem mem_alphabet_expand : symbol ∈ (expand acceptance left right built pair).alphabet ↔
    (∃ other, other ∈ left.alphabet.toList ∧
      ((follow? left right pair other).isSome = true ∧ symbol = other)) ∨
        symbol ∈ built.alphabet := by
  rw [expand_eq]
  refine (foldl_iff (fun built : Automaton => symbol ∈ built.alphabet)
    (fun other => (follow? left right pair other).isSome = true ∧ symbol = other)
    ?_ _ _).trans (or_congr_right ?_)
  · intro built other
    rw [connect]
    split
    case h_1 none => simp [none]
    case h_2 target found => simp [found, mem_alphabet_withTransition, eq_comm]
  · split <;> rfl

/-! ## What all pairs add -/

def start (left right : Automaton) : Automaton :=
  (new (name (left.starting, right.starting))).withSymbols left.alphabet.toList

theorem result_construct : (construct acceptance left right).result =
    (reached left right).foldl (expand acceptance left right) (start left right) := rfl

theorem starting_start : (start left right).starting = name (left.starting, right.starting) := by
  rw [start, withSymbols_eq]
  rfl

theorem not_mem_accepting_start : ¬ state ∈ (start left right).accepting := by
  rw [start, accepting_withSymbols]
  exact SortedSet.not_mem_empty

theorem not_mem_edges_start : ¬ edge ∈ (start left right).edges state := by
  rw [start, edges_withSymbols]
  exact not_mem_edges_new _ state edge

theorem mem_states_start :
    state ∈ (start left right).states ↔ state = name (left.starting, right.starting) := by
  rw [start, states_withSymbols]
  exact List.mem_singleton

theorem mem_alphabet_start : symbol ∈ (start left right).alphabet ↔ symbol ∈ left.alphabet :=
  (mem_alphabet_withSymbols.trans (or_iff_left SortedSet.not_mem_empty)).trans SortedSet.mem_toList

/-- What an automaton looks like that runs two others in lockstep. Pairs that share a name
share a state. -/
structure Combines (acceptance : Acceptance) (left right result : Automaton) : Prop where
  starting : result.starting = name (left.starting, right.starting)
  alphabet : result.alphabet = left.alphabet
  states : ∀ state, state ∈ result.states ↔
    ∃ pair : Pair, left.Meet right pair.1 pair.2 ∧ name pair = state
  accepting : ∀ state, state ∈ result.accepting ↔
    ∃ pair : Pair, left.Meet right pair.1 pair.2 ∧ accepts acceptance left right pair = true ∧
      name pair = state
  edges : ∀ state edge, edge ∈ result.edges state ↔
    ∃ pair target : Pair, ∃ symbol, left.Meet right pair.1 pair.2 ∧ name pair = state ∧
      Edge.mk (.symbol symbol) target.1 ∈ left.edges pair.1 ∧
      Edge.mk (.symbol symbol) target.2 ∈ right.edges pair.2 ∧
      edge = ⟨.symbol symbol, name target⟩

end Product

section Steps

variable {automaton : Automaton} {source next : String} {word : List String}

theorem Deterministic.acceptsFrom_nil (deterministic : automaton.Deterministic) :
    automaton.acceptsFrom source [] = automaton.isAccepting source := by
  rw [Bool.eq_iff_iff, acceptsFrom_iff, deterministic.acceptsFrom_nil_iff, isAccepting,
    decide_eq_true_eq]

theorem Deterministic.acceptsFrom_cons (deterministic : automaton.Deterministic)
    (edge : Edge.mk (.symbol symbol) next ∈ automaton.edges source) :
    automaton.acceptsFrom source (symbol :: word) = automaton.acceptsFrom next word := by
  rw [Bool.eq_iff_iff, acceptsFrom_iff, acceptsFrom_iff,
    deterministic.acceptsFrom_cons_of_edge edge]

theorem Valid.acceptsFrom_foreign (valid : automaton.Valid)
    (foreign : ¬ symbol ∈ automaton.alphabet) :
    automaton.acceptsFrom source (symbol :: word) = false := by
  rw [← Bool.not_eq_true, acceptsFrom_iff]
  exact valid.not_acceptsFrom foreign

end Steps

namespace Product

section Build

variable (valid : left.Valid) (deterministicLeft : left.Deterministic)
  (deterministicRight : right.Deterministic)

include valid deterministicLeft deterministicRight

theorem mem_states_construct : state ∈ (construct acceptance left right).result.states ↔
    ∃ pair : Pair, left.Meet right pair.1 pair.2 ∧ name pair = state := by
  have met {pair : Pair} : pair ∈ reached left right ↔ left.Meet right pair.1 pair.2 :=
    mem_reached_iff valid deterministicLeft deterministicRight
  rw [result_construct]
  refine (foldl_iff (fun built : Automaton => state ∈ built.states)
    (fun pair => (∃ symbol, symbol ∈ left.alphabet ∧ ∃ target,
      follow? left right pair symbol = some target ∧
        (state = name pair ∨ state = name target)) ∨
      (accepts acceptance left right pair = true ∧ state = name pair))
    (fun built pair => mem_states_expand.trans or_assoc.symm) _ _).trans ?_
  rw [mem_states_start]
  constructor
  · rintro (⟨pair, member, ⟨symbol, _, target, found, same | same⟩ | ⟨_, same⟩⟩ | same)
    · exact ⟨pair, met.mp member, same.symm⟩
    · rcases (follow?_eq_some_iff deterministicLeft deterministicRight).mp found with
        ⟨leftEdge, rightEdge⟩
      exact ⟨target, (met.mp member).consume leftEdge rightEdge, same.symm⟩
    · exact ⟨pair, met.mp member, same.symm⟩
    · exact ⟨_, meet_starting, same.symm⟩
  · rintro ⟨pair, meet, same⟩
    -- A pair that is not the first one follows a pair that meets too.
    cases (reachable_followers_iff valid deterministicLeft deterministicRight).mpr meet with
    | seed first => exact .inr (List.mem_singleton.mp first ▸ same.symm)
    | @follow source _ before follows =>
        rcases List.mem_filterMap.mp follows with ⟨symbol, member, found⟩
        refine .inl ⟨source, met.mpr ?_, .inl ⟨symbol, SortedSet.mem_toList.mp member, pair, found,
          .inr same.symm⟩⟩
        exact (reachable_followers_iff valid deterministicLeft deterministicRight).mp before

theorem mem_edges_construct : edge ∈ (construct acceptance left right).result.edges state ↔
    ∃ pair target : Pair, ∃ symbol, left.Meet right pair.1 pair.2 ∧ name pair = state ∧
      Edge.mk (.symbol symbol) target.1 ∈ left.edges pair.1 ∧
      Edge.mk (.symbol symbol) target.2 ∈ right.edges pair.2 ∧
      edge = ⟨.symbol symbol, name target⟩ := by
  rw [result_construct]
  refine (foldl_iff (fun built : Automaton => edge ∈ built.edges state)
    (fun pair => state = name pair ∧ ∃ symbol, symbol ∈ left.alphabet ∧ ∃ target,
      follow? left right pair symbol = some target ∧ edge = ⟨.symbol symbol, name target⟩)
    (fun built pair => mem_edges_expand) _ _).trans ((or_iff_left not_mem_edges_start).trans ?_)
  simp only [mem_reached_iff valid deterministicLeft deterministicRight,
    follow?_eq_some_iff deterministicLeft deterministicRight]
  constructor
  · rintro ⟨pair, meet, same, symbol, _, target, ⟨leftEdge, rightEdge⟩, equal⟩
    exact ⟨pair, target, symbol, meet, same.symm, leftEdge, rightEdge, equal⟩
  · rintro ⟨pair, target, symbol, meet, same, leftEdge, rightEdge, equal⟩
    exact ⟨pair, meet, same.symm, symbol, valid.symbols _ _ _ leftEdge, target,
      ⟨leftEdge, rightEdge⟩, equal⟩

theorem combines_construct : Combines acceptance left right
    (construct acceptance left right).result where
  starting := by
    rw [result_construct, foldl_keeps starting fun _ _ => starting_expand, starting_start]
  alphabet := by
    refine SortedSet.ext fun symbol => ?_
    rw [result_construct]
    refine (foldl_iff (fun built : Automaton => symbol ∈ built.alphabet)
      (fun pair => ∃ other, other ∈ left.alphabet.toList ∧
        ((follow? left right pair other).isSome = true ∧ symbol = other))
      (fun built pair => mem_alphabet_expand) _ _).trans ?_
    rw [mem_alphabet_start]
    refine or_iff_right_of_imp ?_
    rintro ⟨_, _, _, member, _, rfl⟩
    exact SortedSet.mem_toList.mp member
  states _ := mem_states_construct valid deterministicLeft deterministicRight
  accepting state := by
    rw [result_construct]
    refine (foldl_iff (fun built : Automaton => state ∈ built.accepting)
      (fun pair => accepts acceptance left right pair = true ∧ state = name pair)
      (fun built pair => mem_accepting_expand) _ _).trans
      ((or_iff_left not_mem_accepting_start).trans ?_)
    simp only [mem_reached_iff valid deterministicLeft deterministicRight, eq_comm]
  edges _ _ := mem_edges_construct valid deterministicLeft deterministicRight

end Build

/-! ## What the combined automaton accepts -/

/-- Pairs that meet are told apart by their names. -/
def Distinct (left right : Automaton) : Prop :=
  ∀ first second : Pair, left.Meet right first.1 first.2 → left.Meet right second.1 second.2 →
    name first = name second → first = second

theorem Acceptance.holds_false (acceptance : Acceptance) :
    acceptance.holds false false = false := by
  cases acceptance <;> rfl

namespace Combines

variable (combines : Combines acceptance left right result)

include combines

theorem valid (validLeft : left.Valid) : result.Valid where
  starting := combines.starting ▸ (combines.states _).mpr ⟨_, meet_starting, rfl⟩
  accepting state member := by
    rcases (combines.accepting state).mp member with ⟨pair, meet, _, same⟩
    exact (combines.states state).mpr ⟨pair, meet, same⟩
  symbols state symbol target edge := by
    rcases (combines.edges state _).mp edge with ⟨_, _, _, _, _, leftEdge, _, ⟨⟩⟩
    exact combines.alphabet ▸ validLeft.symbols _ _ _ leftEdge
  targets state label target edge := by
    rcases (combines.edges state _).mp edge with
      ⟨_, next, _, meet, _, leftEdge, rightEdge, ⟨⟩⟩
    exact (combines.states _).mpr ⟨next, meet.consume leftEdge rightEdge, rfl⟩

section Total

variable (totalLeft : left.Total) (totalRight : right.Total)
  (alphabet : left.alphabet = right.alphabet) (distinct : Distinct left right)

include totalLeft totalRight distinct

theorem deterministic : result.Deterministic where
  loud state target edge := by
    rcases (combines.edges state _).mp edge with ⟨_, _, _, _, _, _, _, ⟨⟩⟩
  unique state label first second toFirst toSecond := by
    rcases (combines.edges state _).mp toFirst with
      ⟨pair, target, symbol, meet, same, leftEdge, rightEdge, ⟨⟩⟩
    rcases (combines.edges state _).mp toSecond with
      ⟨other, another, _, otherMeet, otherSame, otherLeft, otherRight, ⟨⟩⟩
    cases distinct pair other meet otherMeet (same.trans otherSame.symm)
    exact congrArg name (Prod.ext
      (totalLeft.deterministic.unique _ _ _ _ leftEdge otherLeft)
      (totalRight.deterministic.unique _ _ _ _ rightEdge otherRight))

include alphabet

omit combines distinct in
theorem exists_targets (meet : left.Meet right pair.1 pair.2) (known : symbol ∈ left.alphabet) :
    ∃ target : Pair, Edge.mk (.symbol symbol) target.1 ∈ left.edges pair.1 ∧
      Edge.mk (.symbol symbol) target.2 ∈ right.edges pair.2 := by
  rcases meet with ⟨word, pathLeft, pathRight⟩
  have inLeft := totalLeft.valid.mem_states_of_path pathLeft totalLeft.valid.starting
  have inRight := totalRight.valid.mem_states_of_path pathRight totalRight.valid.starting
  rcases totalLeft.edge _ inLeft symbol known with ⟨leftTarget, leftEdge⟩
  rcases totalRight.edge _ inRight symbol (alphabet ▸ known) with ⟨rightTarget, rightEdge⟩
  exact ⟨(leftTarget, rightTarget), leftEdge, rightEdge⟩

theorem total : result.Total where
  valid := combines.valid totalLeft.valid
  deterministic := combines.deterministic totalLeft totalRight distinct
  edge state declared symbol known := by
    rcases (combines.states state).mp declared with ⟨pair, meet, rfl⟩
    rcases exists_targets totalLeft totalRight alphabet meet (combines.alphabet ▸ known) with
      ⟨target, leftEdge, rightEdge⟩
    exact ⟨name target,
      (combines.edges _ _).mpr ⟨pair, target, symbol, meet, rfl, leftEdge, rightEdge, rfl⟩⟩

omit totalLeft totalRight alphabet in
theorem accepting_name_iff (meet : left.Meet right pair.1 pair.2) :
    name pair ∈ result.accepting ↔ accepts acceptance left right pair = true := by
  rw [combines.accepting]
  constructor
  · rintro ⟨other, otherMeet, accepting, same⟩
    exact distinct other pair otherMeet meet same ▸ accepting
  · exact fun accepting => ⟨pair, meet, accepting, rfl⟩

theorem acceptsFrom_name {word : List String} (meet : left.Meet right pair.1 pair.2) :
    result.acceptsFrom (name pair) word =
      acceptance.holds (left.acceptsFrom pair.1 word) (right.acceptsFrom pair.2 word) := by
  have total := combines.total totalLeft totalRight alphabet distinct
  induction word generalizing pair with
  | nil =>
      rw [totalLeft.deterministic.acceptsFrom_nil, totalRight.deterministic.acceptsFrom_nil,
        total.deterministic.acceptsFrom_nil, Bool.eq_iff_iff, isAccepting, decide_eq_true_eq]
      exact combines.accepting_name_iff distinct meet
  | cons symbol word induction =>
      by_cases known : symbol ∈ left.alphabet
      · rcases exists_targets totalLeft totalRight alphabet meet known with
          ⟨target, leftEdge, rightEdge⟩
        have edge : Edge.mk (.symbol symbol) (name target) ∈ result.edges (name pair) :=
          (combines.edges _ _).mpr ⟨pair, target, symbol, meet, rfl, leftEdge, rightEdge, rfl⟩
        rw [totalLeft.deterministic.acceptsFrom_cons leftEdge,
          totalRight.deterministic.acceptsFrom_cons rightEdge,
          total.deterministic.acceptsFrom_cons edge]
        exact induction (meet.consume leftEdge rightEdge)
      · have foreign : ¬ symbol ∈ result.alphabet := combines.alphabet ▸ known
        rw [totalLeft.valid.acceptsFrom_foreign known,
          totalRight.valid.acceptsFrom_foreign (alphabet ▸ known),
          total.valid.acceptsFrom_foreign foreign, acceptance.holds_false]

theorem accepts_eq (word : List String) :
    result.accepts word = acceptance.holds (left.accepts word) (right.accepts word) := by
  rw [Automaton.accepts, combines.starting]
  have meet : left.Meet right (left.starting, right.starting).1 (left.starting, right.starting).2 :=
    meet_starting
  exact combines.acceptsFrom_name totalLeft totalRight alphabet distinct meet

end Total

end Combines

/-! ## What is observed -/

theorem length_steps : (construct acceptance left right).steps.length =
    (reached left right).length := by
  have items := congrArg List.length
    (map_fst_progress (expand acceptance left right) (start left right) (reached left right))
  rw [List.length_map] at items
  rw [construct, List.length_map]
  exact items

section Observed

variable (valid : left.Valid) (deterministicLeft : left.Deterministic)
  (deterministicRight : right.Deterministic)

include valid deterministicLeft deterministicRight

theorem size_states (distinct : Distinct left right) :
    (construct acceptance left right).result.states.size = (reached left right).length := by
  have met {pair : Pair} : pair ∈ reached left right ↔ left.Meet right pair.1 pair.2 :=
    mem_reached_iff valid deterministicLeft deterministicRight
  have nodup : ((reached left right).map name).Nodup :=
    (nodup_reached valid deterministicLeft deterministicRight).map_on
      fun first inFirst second inSecond => distinct first second (met.mp inFirst) (met.mp inSecond)
  have same : (construct acceptance left right).result.states.toList.Perm
      ((reached left right).map name) := by
    refine (List.perm_ext_iff_of_nodup (SortedSet.nodup_toList _) nodup).mpr fun state => ?_
    rw [SortedSet.mem_toList, mem_states_construct valid deterministicLeft deterministicRight,
      List.mem_map]
    exact exists_congr fun pair => and_congr_left fun _ => met.symm
  rw [SortedSet.size, same.length_eq, List.length_map]

theorem exists_last_step : ∃ last, (construct acceptance left right).steps.getLast? = some last ∧
    last.snapshot = (construct acceptance left right).result := by
  have first : (left.starting, right.starting) ∈ reached left right :=
    (mem_reached_iff valid deterministicLeft deterministicRight).mpr meet_starting
  have last := getLast?_progress (expand acceptance left right) (start left right)
    (reached left right)
  rw [← result_construct] at last
  have items := map_fst_progress (expand acceptance left right) (start left right)
    (reached left right)
  cases found : (progress (expand acceptance left right) (start left right)
      (reached left right)).getLast? with
  | none =>
      rw [List.getLast?_eq_none_iff.mp found] at items
      rw [← items] at first
      cases first
  | some entry =>
      rw [found] at last
      refine ⟨Step.described entry.2 (description acceptance left right entry.1), ?_, last⟩
      rw [construct, List.getLast?_map]
      exact congrArg _ found

end Observed

end Product

theorem requireComplete_eq_ok {automaton : Automaton} {side : Side}
    (valid : automaton.isValid = true) (complete : automaton.isComplete = true) :
    requireComplete side automaton = .ok () := by
  rw [requireComplete, valid, complete]
  rfl

theorem combine_eq (validLeft : left.isValid = true) (completeLeft : left.isComplete = true)
    (validRight : right.isValid = true) (completeRight : right.isComplete = true)
    (alphabet : left.alphabet = right.alphabet) :
    combine acceptance left right = .ok (construct acceptance left right) := by
  rw [combine, requireCombinable, requireComplete_eq_ok validLeft completeLeft,
    requireComplete_eq_ok validRight completeRight, if_neg (not_not_intro alphabet)]
  rfl

/-- Two valid complete deterministic automata over one alphabet can be combined if no state of
the first one has a comma in its name. The states of the result are the names of the pairs
that some word leads to, each pair with a name of its own. It accepts what both of the
automata accept, or what either does, and there is one step for each of its states. -/
theorem combine_exact (acceptance : Acceptance) (left right : Automaton)
    (validLeft : left.isValid = true) (completeLeft : left.isComplete = true)
    (validRight : right.isValid = true) (completeRight : right.isComplete = true)
    (alphabet : left.alphabet = right.alphabet)
    (plain : ∀ state, state ∈ left.states → ¬ ',' ∈ state.toList) :
    ∃ observed, combine acceptance left right = .ok observed ∧
      observed.result.isValid = true ∧ observed.result.isComplete = true ∧
      observed.result.alphabet = left.alphabet ∧
      (∀ state, state ∈ observed.result.states ↔
        ∃ pair : Pair, left.Meet right pair.1 pair.2 ∧ name pair = state) ∧
      (∀ first second : Pair, left.Meet right first.1 first.2 → left.Meet right second.1 second.2 →
        name first = name second → first = second) ∧
      (∀ word, observed.result.accepts word =
        acceptance.holds (left.accepts word) (right.accepts word)) ∧
      observed.steps.length = observed.result.states.size ∧
      ∃ last, observed.steps.getLast? = some last ∧ last.snapshot = observed.result := by
  have totalLeft := total_iff.mpr ⟨validLeft, completeLeft⟩
  have totalRight := total_iff.mpr ⟨validRight, completeRight⟩
  have deterministicLeft := totalLeft.deterministic
  have deterministicRight := totalRight.deterministic
  have combines : Combines acceptance left right _ :=
    combines_construct totalLeft.valid deterministicLeft deterministicRight
  have plainMember {first second : String} (meet : left.Meet right first second) :
      ¬ ',' ∈ first.toList := by
    rcases meet with ⟨word, path, _⟩
    exact plain first (totalLeft.valid.mem_states_of_path path totalLeft.valid.starting)
  have distinct : Distinct left right := fun first second inFirst inSecond =>
    name_injective (plainMember inFirst) (plainMember inSecond)
  have total := total_iff.mp (combines.total totalLeft totalRight alphabet distinct)
  refine ⟨construct acceptance left right,
    combine_eq validLeft completeLeft validRight completeRight alphabet, total.1, total.2,
    combines.alphabet, combines.states, distinct,
    combines.accepts_eq totalLeft totalRight alphabet distinct, ?_,
    exists_last_step totalLeft.valid deterministicLeft deterministicRight⟩
  rw [length_steps, size_states totalLeft.valid deterministicLeft deterministicRight distinct]

/-- Even numbers of `x`. -/
def evenCount : Automaton :=
  ofRows "e" ["e"] ["x", "y"]
    [("e", [(.symbol "x", ["o"]), (.symbol "y", ["e"])]),
      ("o", [(.symbol "x", ["e"]), (.symbol "y", ["o"])])]

/-- Words that end in `x`, with commas in the names and a state that is never reached. -/
def commaNamed : Automaton :=
  ofRows "p,q" ["q,"] ["x", "y"]
    [("p,q", [(.symbol "x", ["q,"]), (.symbol "y", ["p,q"])]),
      ("q,", [(.symbol "x", ["q,"]), (.symbol "y", ["p,q"])]),
      (",", [(.symbol "x", ["p,q"]), (.symbol "y", [","])])]

theorem combine_evenCount_commaNamed :
    evenCount.isValid = true ∧ evenCount.isComplete = true ∧ commaNamed.isValid = true ∧
      commaNamed.isComplete = true ∧ evenCount.alphabet = commaNamed.alphabet ∧
      (∀ state, state ∈ evenCount.states → ¬ ',' ∈ state.toList) ∧
      ∃ observed, combine .both evenCount commaNamed = .ok observed ∧
        observed.result.isValid = true ∧ observed.result.isComplete = true ∧
        observed.result.alphabet = evenCount.alphabet ∧
        (∀ state, state ∈ observed.result.states ↔
          ∃ pair : Pair, evenCount.Meet commaNamed pair.1 pair.2 ∧ name pair = state) ∧
        (∀ first second : Pair, evenCount.Meet commaNamed first.1 first.2 →
          evenCount.Meet commaNamed second.1 second.2 → name first = name second →
          first = second) ∧
        (∀ word, observed.result.accepts word =
          Acceptance.both.holds (evenCount.accepts word) (commaNamed.accepts word)) ∧
        observed.steps.length = observed.result.states.size ∧
        ∃ last, observed.steps.getLast? = some last ∧ last.snapshot = observed.result := by
  have plain : ∀ state, state ∈ evenCount.states → ¬ ',' ∈ state.toList := by
    have all : evenCount.states.all (fun state => decide (¬ ',' ∈ state.toList)) = true := by decide
    exact fun state member => of_decide_eq_true (SortedSet.all_iff.mp all state member)
  exact ⟨by decide, by decide, by decide, by decide, by decide, plain,
    combine_exact .both evenCount commaNamed (by decide) (by decide) (by decide) (by decide)
      (by decide) plain⟩

end FormalLanguages.Automaton
