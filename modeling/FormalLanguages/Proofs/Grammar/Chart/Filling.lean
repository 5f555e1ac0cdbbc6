import FormalLanguages.Proofs.Grammar.Chart.Saturation

namespace FormalLanguages.Grammar.Chart

/-! # Filling the chart

What is charted is derived, as every entry rests on older ones. What is derived is charted once
the part has been filled, if the smaller parts inside of it were filled before. -/

variable {grammar : Grammar} {input : List String} {chart next : Chart} {tokens : List Token}
  {name : String} {first last length : Nat}

/-! ## Entries rest on older entries -/

/-- Every entry names an alternative of its non-terminal, whose tokens fit in the chart as it was
before the entry was there. -/
inductive Grounded : Chart → Prop
  | empty (grammar : Grammar) (input : List String) : Grounded ⟨grammar, input, []⟩
  | found {chart : Chart} {span : Span} {split : Split} {alternative : Alternative}
      (older : Grounded chart) (new : chart.get? span = none)
      (taken : (chart.grammar.alternatives span.nonTerminal)[split.alternative]? = some alternative)
      (known : Ends chart alternative span.first span.last split.ends) :
      Grounded (chart.record span split)

theorem Grounded.tried {production : String × List (Alternative × Nat)} (grounded : Grounded chart)
    (member : production ∈ order chart.grammar)
    (tried : Tried first last chart production next) : Grounded next := by
  cases tried with
  | settled => exact grounded
  | found new inside known => exact .found grounded new (getElem?_of_mem_order member inside) known

theorem yields_of_matches
    (sound : ∀ name, Charted chart name first last →
      grammar.Derives name (part chart.input first (last - first)))
    {token : Token} (here : Matches chart token first last) :
    grammar.Yields [token] (part chart.input first (last - first)) := by
  cases token with
  | nonTerminal name => exact yields_singleton_iff.mpr (sound name here)
  | terminal name =>
      rcases here with ⟨rfl, found⟩
      rw [Nat.add_sub_cancel_left, part_one_iff.mpr found]
      exact .terminal name .done
  | empty =>
      rw [show first = last from here, Nat.sub_self, part_zero]
      exact .empty .done

theorem yields_of_ends
    (sound : ∀ name first last, Charted chart name first last →
      grammar.Derives name (part chart.input first (last - first)))
    {ends : List Nat} (known : Ends chart tokens first last ends) :
    first ≤ last ∧ grammar.Yields tokens (part chart.input first (last - first)) := by
  induction tokens generalizing first ends with
  | nil =>
      rw [known.1, Nat.sub_self, part_zero]
      exact ⟨Nat.le_refl _, .done⟩
  | cons token rest induction =>
      rcases known with ⟨middle, later, _, low, high, here, known⟩
      have one := yields_of_matches (fun name => sound name first middle) (fits_iff.mp here)
      have sizes : last - first = (middle - first) + (last - middle) := by omega
      rw [sizes, part_add, Nat.add_sub_cancel' low]
      exact ⟨Nat.le_trans low high, one.append (induction known).2⟩

theorem Grounded.derives (grounded : Grounded chart) (charted : Charted chart name first last) :
    chart.grammar.Derives name (part chart.input first (last - first)) := by
  induction grounded generalizing name first last with
  | empty => cases charted
  | found _ _ taken known induction =>
      rcases charted_record.mp charted with rfl | before
      · have yields := yields_of_ends (fun _ _ _ => induction) known
        exact ⟨_, List.mem_of_getElem? taken, yields.2⟩
      · exact induction before

/-! ## Parts are closed -/

def whole (chart : Chart) (first last : Nat) : List String := part chart.input first (last - first)

/-- A name means what it derives, and derives the whole part only if it is charted. -/
def Meaning (chart : Chart) (first last : Nat) (name : String) (word : List String) : Prop :=
  chart.grammar.Derives name word ∧ (word = whole chart first last → Charted chart name first last)

/-- The smaller parts inside of a part have been filled. -/
def Inside (chart : Chart) (first last : Nat) : Prop :=
  ∀ name low high, first ≤ low → low ≤ high → high ≤ last → high - low < last - first →
    chart.grammar.Derives name (part chart.input low (high - low)) → Charted chart name low high

theorem Extends.inside (larger : Extends chart next) (inside : Inside chart first last) :
    Inside next first last := by
  intro name low high after ordered before shorter derives
  rw [larger.grammar, larger.input] at derives
  exact larger.charted (inside name low high after ordered before shorter derives)

theorem matches_of_spells (inside : Inside chart first last) {token : Token} {low : Nat}
    {word : List String} (after : first ≤ low) (before : low + word.length ≤ last)
    (same : word = part chart.input low word.length)
    (spells : Spells (Meaning chart first last) [token] word) :
    Matches chart token low (low + word.length) := by
  cases token with
  | nonTerminal name =>
      rcases spells_singleton_iff.mp spells with ⟨derives, closed⟩
      by_cases ends : low = first ∧ low + word.length = last
      · rcases ends with ⟨rfl, rfl⟩
        refine closed (same.trans ?_)
        rw [whole, Nat.add_sub_cancel_left]
      · refine inside name low (low + word.length) after (Nat.le_add_right _ _) before (by omega) ?_
        rwa [Nat.add_sub_cancel_left, ← same]
  | terminal name =>
      rcases spells with ⟨tail, rfl, rfl⟩
      exact ⟨rfl, part_one_iff.mp same.symm⟩
  | empty => exact (show word = [] from spells) ▸ rfl

theorem exists_ends (inside : Inside chart first last) {low : Nat} (after : first ≤ low)
    (order : low ≤ last) (within : last ≤ chart.input.length)
    (spells : Spells (Meaning chart first last) tokens (part chart.input low (last - low))) :
    ∃ ends, Ends chart tokens low last ends := by
  have fits : low + (last - low) ≤ chart.input.length := by omega
  induction tokens generalizing low with
  | nil =>
      have size := length_part fits
      rw [show part chart.input low (last - low) = [] from spells] at size
      exact ⟨[], by rw [List.length_nil] at size; omega, rfl⟩
  | cons token rest induction =>
      rcases spells_cons_iff.mp spells with ⟨left, right, same, one, spells⟩
      rcases part_eq_append fits same with ⟨short, leftPart, rightPart⟩
      have sizes : last - low - left.length = last - (low + left.length) := by omega
      rw [rightPart, sizes] at spells
      rcases induction (by omega) (by omega) spells (by omega) with ⟨later, known⟩
      have here := fits_iff.mpr (matches_of_spells inside after (by omega) leftPart one)
      exact ⟨_, _, later, rfl, by omega, by omega, here, known⟩

theorem charted_of_settled (inside : Inside chart first last)
    (settled : ∀ production, production ∈ order chart.grammar →
      Settled chart first last production)
    (ordered : first ≤ last) (within : last ≤ chart.input.length)
    (derives : chart.grammar.Derives name (whole chart first last)) :
    Charted chart name first last := by
  refine derives.means_of_derived (fun name word => word = whole chart first last →
    Charted chart name first last) (fun name alternative _ member _ spells same => ?_) rfl
  cases same
  rcases exists_mem_order member with ⟨production, listed, rfl, choice, chosen, rfl⟩
  exact settled production listed choice chosen
    (exists_ends inside (Nat.le_refl _) ordered within spells)

/-! ## Part after part -/

theorem foldl_range {State : Type} (holds : Nat → State → Prop) {step : State → Nat → State}
    {count : Nat} {state : State} (first : holds 0 state)
    (next : ∀ round state, round < count → holds round state →
      holds (round + 1) (step state round)) :
    holds count ((List.range count).foldl step state) := by
  induction count with
  | zero => exact first
  | succ count induction =>
      rw [List.range_succ, List.foldl_append]
      exact next count _ (Nat.lt_succ_self _)
        (induction fun round state before => next round state (Nat.lt_succ_of_lt before))

/-- All shorter parts have been filled, and of the parts of the length those that start earlier. -/
structure Filled (grammar : Grammar) (input : List String) (length start : Nat) (chart : Chart) :
    Prop where
  sameGrammar : chart.grammar = grammar
  sameInput : chart.input = input
  grounded : Grounded chart
  complete : ∀ name first last, first ≤ last → last ≤ input.length →
    last - first < length ∨ last - first = length ∧ first < start →
    grammar.Derives name (part input first (last - first)) → Charted chart name first last

namespace Filled

variable {start : Nat}

theorem inside (filled : Filled grammar input length start chart)
    (within : start + length ≤ input.length) : Inside chart start (start + length) := by
  intro name low high after ordered before shorter derives
  rw [filled.sameGrammar, filled.sameInput] at derives
  exact filled.complete name low high ordered (by omega) (.inl (by omega)) derives

theorem extends_saturate (filled : Filled grammar input length start chart) (passes : Nat) :
    Extends chart (saturate (order grammar) first last passes chart) ∧
      Grounded (saturate (order grammar) first last passes chart) := by
  refine saturate_keeps (fun next => Extends chart next ∧ Grounded next)
    (fun next production _ member before tried => ?_) ⟨.refl chart, filled.grounded⟩
  have listed : production ∈ order next.grammar := by rwa [before.1.grammar, filled.sameGrammar]
  exact ⟨before.1.trans tried.larger, before.2.tried listed tried⟩

theorem fillPart (filled : Filled grammar input length start chart)
    (within : start + length ≤ input.length) :
    Filled grammar input length (start + 1) (fillPart (order grammar) length chart start) := by
  rw [Chart.fillPart]
  rcases filled.extends_saturate (order grammar).length with ⟨larger, grounded⟩
  have sameGrammar := larger.grammar.trans filled.sameGrammar
  have sameInput := larger.input.trans filled.sameInput
  refine ⟨sameGrammar, sameInput, grounded, fun name first last ordered least known derives => ?_⟩
  by_cases own : first = start ∧ last = start + length
  · rcases own with ⟨rfl, rfl⟩
    have closed := larger.inside (filled.inside within)
    refine charted_of_settled closed (fun production member => ?_) ordered (by rwa [sameInput]) ?_
    · exact settled_saturate chart first (first + length) (sameGrammar ▸ member)
    · rwa [sameGrammar, whole, sameInput]
  · exact larger.charted (filled.complete name first last ordered least (by omega) derives)

theorem fillLength (filled : Filled grammar input length 0 chart) :
    Filled grammar input (length + 1) 0 (fillLength (order grammar) chart length) := by
  have all : Filled grammar input length (chart.input.length + 1 - length)
      (Chart.fillLength (order grammar) chart length) := by
    refine foldl_range (Filled grammar input length) filled fun start next before known => ?_
    rw [filled.sameInput] at before
    exact known.fillPart (by omega)
  refine ⟨all.sameGrammar, all.sameInput, all.grounded, fun name first last ordered within known =>
    all.complete name first last ordered within ?_⟩
  rw [filled.sameInput]
  omega

end Filled

theorem filled_fill (grammar : Grammar) (input : List String) :
    Filled grammar input (input.length + 1) 0 (fill grammar input) := by
  refine foldl_range (fun length => Filled grammar input length 0) ?_
    fun length next _ known => known.fillLength
  exact ⟨rfl, rfl, .empty grammar input, fun _ _ _ _ _ none => by omega⟩

/-- The chart holds what is derived and nothing else. -/
theorem charted_fill_iff (ordered : first ≤ last) (within : last ≤ input.length) :
    Charted (fill grammar input) name first last ↔
      grammar.Derives name (part input first (last - first)) := by
  have filled := filled_fill grammar input
  constructor
  · intro charted
    have derives := filled.grounded.derives charted
    rwa [filled.sameGrammar, filled.sameInput] at derives
  · exact filled.complete name first last ordered within (.inl (by omega))

end FormalLanguages.Grammar.Chart
