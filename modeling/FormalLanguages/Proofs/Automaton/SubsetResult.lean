import FormalLanguages.Proofs.Automaton.SubsetNames

namespace FormalLanguages.Automaton.Subset

/-! # What the subset construction builds

The states of the constructed automaton are the names of the visited sets, and an edge
leads from the name of a set to the name of the set that it steps to. -/

variable {automaton : Automaton}

/-! ## Fans

Both the rows of the sets and the row of the sink are fans: one source, and one
edge for every symbol. -/

def fan (source : String) (target : String → String) (symbols : List String)
    (built : Automaton) : Automaton :=
  symbols.foldl (fun built symbol =>
    built.withTransition source (Label.ofText symbol) (target symbol)) built

section Fan

variable {source state : String} {target : String → String} {symbols : List String}
  {built : Automaton}

theorem starting_fan : (fan source target symbols built).starting = built.starting := by
  induction symbols generalizing built with
  | nil => rfl
  | cons symbol rest induction =>
      rw [fan, List.foldl_cons]
      exact induction.trans (by cases Label.ofText symbol <;> rfl)

theorem accepting_fan : (fan source target symbols built).accepting = built.accepting := by
  induction symbols generalizing built with
  | nil => rfl
  | cons symbol rest induction =>
      rw [fan, List.foldl_cons]
      exact induction.trans (by cases Label.ofText symbol <;> rfl)

theorem mem_edges_fan {edge : Edge} :
    edge ∈ (fan source target symbols built).edges state ↔
      (∃ symbol, symbol ∈ symbols ∧
        (state = source ∧ edge = ⟨Label.ofText symbol, target symbol⟩)) ∨
      edge ∈ built.edges state := by
  refine foldl_iff (fun built : Automaton => edge ∈ built.edges state)
    (fun symbol => state = source ∧ edge = ⟨Label.ofText symbol, target symbol⟩) ?_ symbols built
  exact fun built symbol => mem_edges_withTransition built state source _ _

theorem mem_states_fan :
    state ∈ (fan source target symbols built).states ↔
      (∃ symbol, symbol ∈ symbols ∧ (state = source ∨ state = target symbol)) ∨
      state ∈ built.states := by
  refine foldl_iff (fun built : Automaton => state ∈ built.states)
    (fun symbol => state = source ∨ state = target symbol) ?_ symbols built
  exact fun built symbol =>
    (mem_states_withTransition built state source _ _).trans or_assoc.symm

theorem mem_alphabet_fan {symbol : String} :
    symbol ∈ (fan source target symbols built).alphabet ↔
      (∃ other, other ∈ symbols ∧ Label.ofText other = .symbol symbol) ∨
      symbol ∈ built.alphabet := by
  refine foldl_iff (fun built : Automaton => symbol ∈ built.alphabet)
    (fun other => Label.ofText other = .symbol symbol) ?_ symbols built
  exact fun built other => mem_alphabet_withTransition built source _ _

end Fan

section Expand

variable {name : SortedSet String → String} {built : Automaton} {set : SortedSet String}
  {state : String}

theorem starting_expand : (expand automaton name built set).starting = built.starting := by
  apply starting_fan.trans
  split <;> rfl

theorem mem_accepting_expand :
    state ∈ (expand automaton name built set).accepting ↔
      (set.any automaton.isAccepting = true ∧ state = name set) ∨ state ∈ built.accepting := by
  apply (iff_of_eq (congrArg (state ∈ ·) accepting_fan)).trans
  split
  case isTrue accepts => rw [mem_accepting_withAccepting, and_iff_right accepts]
  case isFalse rejects => simp [rejects]

theorem mem_edges_expand {edge : Edge} :
    edge ∈ (expand automaton name built set).edges state ↔
      (state = name set ∧ ∃ symbol, symbol ∈ automaton.alphabet ∧
        edge = ⟨Label.ofText symbol, name (automaton.step set symbol)⟩) ∨
      edge ∈ built.edges state := by
  refine mem_edges_fan.trans (or_congr ?_ ?_)
  · constructor
    · intro found
      rcases found with ⟨symbol, member, same, equal⟩
      exact ⟨same, symbol, member, equal⟩
    · intro found
      rcases found with ⟨same, symbol, member, equal⟩
      exact ⟨symbol, member, same, equal⟩
  · split <;> simp

theorem mem_states_expand :
    state ∈ (expand automaton name built set).states ↔
      ((set.any automaton.isAccepting = true ∧ state = name set) ∨
        ∃ symbol, symbol ∈ automaton.alphabet ∧
          (state = name set ∨ state = name (automaton.step set symbol))) ∨
      state ∈ built.states := by
  rw [or_comm (a := _ ∧ _), or_assoc]
  refine mem_states_fan.trans (or_congr_right ?_)
  split
  case isTrue accepts => rw [mem_states_withAccepting, and_iff_right accepts]
  case isFalse rejects => simp [rejects]

theorem mem_alphabet_expand {symbol : String} :
    symbol ∈ (expand automaton name built set).alphabet ↔
      (∃ other, other ∈ automaton.alphabet ∧ Label.ofText other = .symbol symbol) ∨
      symbol ∈ built.alphabet := by
  refine mem_alphabet_fan.trans (or_congr_right ?_)
  split <;> rfl

end Expand

/-! ## The constructed automaton -/

def stateName (automaton : Automaton) : SortedSet String → String :=
  nameOf (naming automaton.sinkName (reached automaton)) automaton.sinkName

/-- The empty set counts as visited if some step leads to it: the sink stands for it. -/
def Visited (automaton : Automaton) (set : SortedSet String) : Prop :=
  set ∈ reached automaton ∨ set = ∅ ∧ needsSink automaton (reached automaton) = true

theorem visited_initial : Visited automaton (initial automaton) := .inl initial_mem_reached

theorem empty_not_mem_reached : ¬ (∅ : SortedSet String) ∈ reached automaton := fun member =>
  (nonempty_of_mem_reached member).elim fun _ => SortedSet.not_mem_empty

theorem stateName_empty : stateName automaton ∅ = automaton.sinkName :=
  nameOf_eq_sink empty_not_mem_reached

theorem stateName_injective {left right : SortedSet String} (inLeft : Visited automaton left)
    (inRight : Visited automaton right)
    (equal : stateName automaton left = stateName automaton right) : left = right := by
  rcases inLeft with inLeft | ⟨rfl, _⟩ <;> rcases inRight with inRight | ⟨rfl, _⟩
  · exact nameOf_injective inLeft inRight equal
  · exact absurd (equal.trans stateName_empty) (nameOf_ne_sink inLeft)
  · exact absurd (equal.symm.trans stateName_empty) (nameOf_ne_sink inRight)
  · rfl

theorem needsSink_iff : needsSink automaton (reached automaton) = true ↔
    ∃ set, set ∈ reached automaton ∧ ∃ symbol, symbol ∈ automaton.alphabet ∧
      automaton.step set symbol = ∅ := by
  simp only [needsSink, List.any_eq_true, SortedSet.any_iff, SortedSet.isEmpty_iff]
  constructor
  · intro found
    rcases found with ⟨set, member, symbol, inAlphabet, none⟩
    exact ⟨set, member, symbol, inAlphabet, SortedSet.eq_empty none⟩
  · intro found
    rcases found with ⟨set, member, symbol, inAlphabet, empty⟩
    exact ⟨set, member, symbol, inAlphabet, empty ▸ fun _ => SortedSet.not_mem_empty⟩

theorem Visited.step {set : SortedSet String} {symbol : String} (visited : Visited automaton set)
    (member : symbol ∈ automaton.alphabet) : Visited automaton (automaton.step set symbol) := by
  rcases visited with inReached | ⟨rfl, needed⟩
  · cases empty : (automaton.step set symbol).isEmpty with
    | true =>
        have none := SortedSet.eq_empty (SortedSet.isEmpty_iff.mp empty)
        exact .inr ⟨none, needsSink_iff.mpr ⟨set, inReached, symbol, member, none⟩⟩
    | false =>
        refine .inl (mem_reached_iff.mpr (.follow (mem_reached_iff.mp inReached) ?_))
        exact mem_successors.mpr ⟨⟨symbol, member, rfl⟩, empty⟩
  · exact .inr ⟨step_empty symbol, needed⟩

def start (automaton : Automaton) : Automaton :=
  (new (stateName automaton (initial automaton))).withSymbols automaton.alphabet.toList

theorem starting_start : (start automaton).starting = stateName automaton (initial automaton) := by
  rw [start, withSymbols_eq]
  rfl

theorem not_mem_accepting_start {state : String} : ¬ state ∈ (start automaton).accepting := by
  rw [start, withSymbols_eq]
  exact SortedSet.not_mem_empty

theorem rows_start : (start automaton).rows =
    .singleton (stateName automaton (initial automaton)) ∅ := by
  rw [start, withSymbols_eq]
  rfl

theorem not_mem_edges_start {state : String} {edge : Edge} :
    ¬ edge ∈ (start automaton).edges state := by
  rw [edges, rows_start]
  exact not_mem_edges_new _ state edge

theorem mem_states_start {state : String} :
    state ∈ (start automaton).states ↔ state = stateName automaton (initial automaton) := by
  rw [states, rows_start]
  exact List.mem_singleton

theorem mem_alphabet_start {symbol : String} :
    symbol ∈ (start automaton).alphabet ↔ symbol ∈ automaton.alphabet :=
  mem_alphabet_withSymbols.trans (or_iff_left SortedSet.not_mem_empty)

def expanded (automaton : Automaton) : Automaton :=
  (reached automaton).foldl (expand automaton (stateName automaton)) (start automaton)

theorem result_construct : (construct automaton).result =
    if needsSink automaton (reached automaton) then
      fan automaton.sinkName (fun _ => automaton.sinkName) automaton.alphabet.toList
        (expanded automaton)
    else expanded automaton := by
  simp only [construct]
  split <;> rfl

theorem starting_result : (construct automaton).result.starting =
    stateName automaton (initial automaton) := by
  have sameStarting : (expanded automaton).starting = (start automaton).starting :=
    List.foldlRecOn (motive := fun built : Automaton => built.starting = (start automaton).starting)
      _ _ rfl fun _ same _ _ => starting_expand.trans same
  rw [result_construct]
  split
  · rw [starting_fan, sameStarting, starting_start]
  · rw [sameStarting, starting_start]

theorem mem_accepting_result {state : String} :
    state ∈ (construct automaton).result.accepting ↔
      ∃ set, set ∈ reached automaton ∧
        (set.any automaton.isAccepting = true ∧ state = stateName automaton set) := by
  have inExpanded : state ∈ (expanded automaton).accepting ↔
      ∃ set, set ∈ reached automaton ∧
        (set.any automaton.isAccepting = true ∧ state = stateName automaton set) := by
    refine (foldl_iff (fun built : Automaton => state ∈ built.accepting)
      (fun set => set.any automaton.isAccepting = true ∧ state = stateName automaton set)
      (fun built set => mem_accepting_expand) _ _).trans ?_
    exact or_iff_left not_mem_accepting_start
  rw [result_construct]
  split
  · rw [accepting_fan, inExpanded]
  · exact inExpanded

theorem accepting_stateName_iff {set : SortedSet String} (visited : Visited automaton set) :
    stateName automaton set ∈ (construct automaton).result.accepting ↔
      set.any automaton.isAccepting = true := by
  rw [mem_accepting_result]
  constructor
  · intro found
    rcases found with ⟨other, member, accepts, same⟩
    rw [stateName_injective visited (.inl member) same]
    exact accepts
  · intro accepts
    rcases visited with member | ⟨rfl, _⟩
    · exact ⟨set, member, accepts, rfl⟩
    · rcases SortedSet.any_iff.mp accepts with ⟨state, none, _⟩
      exact absurd none SortedSet.not_mem_empty

theorem mem_edges_result {state : String} {edge : Edge} :
    edge ∈ (construct automaton).result.edges state ↔
      ∃ set, Visited automaton set ∧ state = stateName automaton set ∧
        ∃ symbol, symbol ∈ automaton.alphabet ∧
          edge = ⟨Label.ofText symbol, stateName automaton (automaton.step set symbol)⟩ := by
  have inExpanded : edge ∈ (expanded automaton).edges state ↔
      ∃ set, set ∈ reached automaton ∧ (state = stateName automaton set ∧
        ∃ symbol, symbol ∈ automaton.alphabet ∧
          edge = ⟨Label.ofText symbol, stateName automaton (automaton.step set symbol)⟩) := by
    refine (foldl_iff (fun built : Automaton => edge ∈ built.edges state) _
      (fun built set => mem_edges_expand) _ _).trans ?_
    exact or_iff_left not_mem_edges_start
  rw [result_construct]
  simp only [Visited]
  split
  case isTrue needed =>
    rw [mem_edges_fan, inExpanded]
    constructor
    · intro either
      rcases either with ⟨symbol, member, same, equal⟩ | ⟨set, member, rest⟩
      · refine ⟨∅, .inr ⟨rfl, needed⟩, same.trans stateName_empty.symm, symbol, member, ?_⟩
        rw [step_empty, stateName_empty, equal]
      · exact ⟨set, .inl member, rest⟩
    · intro found
      rcases found with ⟨set, member | ⟨rfl, _⟩, same, symbol, inAlphabet, equal⟩
      · exact .inr ⟨set, member, same, symbol, inAlphabet, equal⟩
      · rw [step_empty, stateName_empty] at equal
        exact .inl ⟨symbol, inAlphabet, same.trans stateName_empty, equal⟩
  case isFalse spared =>
    rw [inExpanded]
    constructor
    · intro found
      rcases found with ⟨set, member, rest⟩
      exact ⟨set, .inl member, rest⟩
    · intro found
      rcases found with ⟨set, member | ⟨_, needed⟩, rest⟩
      · exact ⟨set, member, rest⟩
      · exact absurd needed spared

theorem mem_states_expanded {state : String} :
    state ∈ (expanded automaton).states ↔
      (∃ set, set ∈ reached automaton ∧
        ((set.any automaton.isAccepting = true ∧ state = stateName automaton set) ∨
          ∃ symbol, symbol ∈ automaton.alphabet ∧ (state = stateName automaton set ∨
            state = stateName automaton (automaton.step set symbol)))) ∨
      state = stateName automaton (initial automaton) := by
  refine (foldl_iff (fun built : Automaton => state ∈ built.states) _
    (fun built set => mem_states_expand) _ _).trans ?_
  rw [mem_states_start]

theorem visited_of_mem_states_expanded {state : String}
    (declared : state ∈ (expanded automaton).states) :
    ∃ set, Visited automaton set ∧ state = stateName automaton set := by
  rcases mem_states_expanded.mp declared with
    ⟨set, member, ⟨_, same⟩ | ⟨symbol, inAlphabet, same | same⟩⟩ | same
  · exact ⟨set, .inl member, same⟩
  · exact ⟨set, .inl member, same⟩
  · exact ⟨_, Visited.step (.inl member) inAlphabet, same⟩
  · exact ⟨_, visited_initial, same⟩

theorem mem_states_expanded_of_visited {set : SortedSet String}
    (visited : Visited automaton set) : stateName automaton set ∈ (expanded automaton).states := by
  rw [mem_states_expanded]
  rcases visited with member | ⟨rfl, needed⟩
  · cases mem_reached_iff.mp member with
    | seed start => exact .inr (congrArg _ (List.mem_singleton.mp start))
    | follow before successor =>
        rcases mem_successors.mp successor with ⟨⟨symbol, inAlphabet, rfl⟩, _⟩
        exact .inl ⟨_, mem_reached_iff.mpr before, .inr ⟨symbol, inAlphabet, .inr rfl⟩⟩
  · rcases needsSink_iff.mp needed with ⟨set, member, symbol, inAlphabet, empty⟩
    exact .inl ⟨set, member, .inr ⟨symbol, inAlphabet, .inr (empty ▸ rfl)⟩⟩

theorem mem_states_result {state : String} :
    state ∈ (construct automaton).result.states ↔
      ∃ set, Visited automaton set ∧ state = stateName automaton set := by
  have inExpanded : state ∈ (expanded automaton).states ↔
      ∃ set, Visited automaton set ∧ state = stateName automaton set := by
    constructor
    · exact visited_of_mem_states_expanded
    · intro found
      rcases found with ⟨set, visited, rfl⟩
      exact mem_states_expanded_of_visited visited
  rw [result_construct]
  split
  case isTrue needed =>
    rw [mem_states_fan, inExpanded]
    apply or_iff_right_of_imp
    rintro ⟨symbol, _, same | same⟩ <;>
      exact ⟨∅, .inr ⟨rfl, needed⟩, same.trans stateName_empty.symm⟩
  case isFalse => exact inExpanded

end FormalLanguages.Automaton.Subset
