import FormalLanguages.Grammar.Chart

namespace FormalLanguages.Grammar.Chart

/-! # Splitting a part among tokens

The ends that are found are ends of tokens that fit, and ends are found if there are any. Of all
the ends that there are, they are the least in lexicographic order: an end is moved on only if the
later tokens cannot be made to fit behind it. -/

variable {chart : Chart} {tokens : List Token} {start stop : Nat}

/-- The ends of tokens that fit one after the other, from the start to the stop. -/
def Ends (chart : Chart) : List Token → (start stop : Nat) → List Nat → Prop
  | [], start, stop, ends => start = stop ∧ ends = []
  | token :: rest, start, stop, ends => ∃ middle later, ends = middle :: later ∧
      start ≤ middle ∧ middle ≤ stop ∧ chart.fits token start middle = true ∧
      Ends chart rest middle stop later

theorem mem_middles {middle : Nat} :
    middle ∈ List.range' start (stop + 1 - start) ↔ start ≤ middle ∧ middle ≤ stop := by
  rw [List.mem_range'_1]
  omega

theorem exists_first_of_findSome? {α : Type} {choose : Nat → Option α} {choice : α}
    (found : (List.range' start (stop + 1 - start)).findSome? choose = some choice) :
    ∃ first, start ≤ first ∧ first ≤ stop ∧ choose first = some choice ∧
      ∀ middle, start ≤ middle → middle < first → choose middle = none := by
  rcases List.findSome?_eq_some_iff.mp found with ⟨passed, first, rest, middles, chosen, none⟩
  have ascending : (passed ++ first :: rest).Pairwise (· < ·) :=
    middles ▸ List.pairwise_lt_range'
  have member : first ∈ List.range' start (stop + 1 - start) :=
    middles ▸ List.mem_append_right passed List.mem_cons_self
  rcases mem_middles.mp member with ⟨after, before⟩
  refine ⟨first, after, before, chosen, fun middle low earlier => none middle ?_⟩
  have inRange := mem_middles.mpr ⟨low, Nat.le_trans (Nat.le_of_lt earlier) before⟩
  rw [middles] at inRange
  refine (List.mem_append.mp inRange).resolve_right fun behind => ?_
  rcases List.mem_cons.mp behind with rfl | behind
  · exact Nat.lt_irrefl _ earlier
  · have greater := List.rel_of_pairwise_cons (List.pairwise_append.mp ascending).2.1 behind
    exact Nat.lt_asymm earlier greater

/-- The first token ends as early as the later ones allow. -/
theorem exists_earliest_of_split? {token : Token} {rest : List Token} {ends : List Nat}
    (found : chart.split? (token :: rest) start stop = some ends) :
    ∃ first later, ends = first :: later ∧ start ≤ first ∧ first ≤ stop ∧
      chart.fits token start first = true ∧ chart.split? rest first stop = some later ∧
      ∀ middle, start ≤ middle → middle < first → chart.fits token start middle = true →
        chart.split? rest middle stop = none := by
  rcases exists_first_of_findSome? found with ⟨first, after, before, chosen, none⟩
  split at chosen
  case isFalse => cases chosen
  case isTrue here =>
    rcases Option.map_eq_some_iff.mp chosen with ⟨later, split, rfl⟩
    refine ⟨first, later, rfl, after, before, here, split, fun middle low earlier fitting => ?_⟩
    have missing := none middle low earlier
    rwa [if_pos fitting, Option.map_eq_none_iff] at missing

theorem ends_of_split? {ends : List Nat} (found : chart.split? tokens start stop = some ends) :
    Ends chart tokens start stop ends := by
  induction tokens generalizing start ends with
  | nil =>
      rw [split?] at found
      split at found
      case isTrue same => exact ⟨same, (Option.some.inj found).symm⟩
      case isFalse => cases found
  | cons token rest induction =>
      rcases exists_earliest_of_split? found with ⟨first, later, rfl, after, before, here, split, _⟩
      exact ⟨first, later, rfl, after, before, here, induction split⟩

theorem isSome_split? {ends : List Nat} (known : Ends chart tokens start stop ends) :
    (chart.split? tokens start stop).isSome = true := by
  induction tokens generalizing start ends with
  | nil =>
      rw [split?, if_pos known.1]
      rfl
  | cons token rest induction =>
      rcases known with ⟨middle, later, rfl, after, before, here, known⟩
      rw [split?, List.findSome?_isSome_iff]
      refine ⟨middle, mem_middles.mpr ⟨after, before⟩, ?_⟩
      rw [if_pos here, Option.isSome_map]
      exact induction known

theorem isSome_split?_iff : (chart.split? tokens start stop).isSome = true ↔
    ∃ ends, Ends chart tokens start stop ends := by
  constructor
  · intro found
    rcases Option.isSome_iff_exists.mp found with ⟨ends, found⟩
    exact ⟨ends, ends_of_split? found⟩
  · intro found
    rcases found with ⟨ends, known⟩
    exact isSome_split? known

/-- By induction on the tokens: with the same end for the first token, the later ones decide. -/
theorem eq_or_lex_of_split? {ends others : List Nat}
    (found : chart.split? tokens start stop = some ends)
    (known : Ends chart tokens start stop others) :
    others = ends ∨ List.Lex (· < ·) ends others := by
  induction tokens generalizing start ends others with
  | nil => exact .inl (known.2.trans (ends_of_split? found).2.symm)
  | cons token rest induction =>
      rcases exists_earliest_of_split? found with ⟨first, later, rfl, _, _, _, split, missing⟩
      rcases known with ⟨middle, others, rfl, after, _, here, known⟩
      rcases Nat.lt_trichotomy first middle with earlier | rfl | passed
      · exact .inr (.rel earlier)
      · exact (induction split known).imp (congrArg _) .cons
      · have some := isSome_split? known
        rw [missing middle after passed here] at some
        cases some

/-- The ends that are found are the least ones, and only one list of ends can be. -/
theorem split?_eq_some_iff {ends : List Nat} : chart.split? tokens start stop = some ends ↔
    Ends chart tokens start stop ends ∧
      ∀ others, Ends chart tokens start stop others →
        others = ends ∨ List.Lex (· < ·) ends others := by
  refine ⟨fun found => ⟨ends_of_split? found, fun _ => eq_or_lex_of_split? found⟩, fun least => ?_⟩
  rcases Option.isSome_iff_exists.mp (isSome_split? least.1) with ⟨best, found⟩
  rcases least.2 best (ends_of_split? found) with rfl | later
  · exact found
  · rcases eq_or_lex_of_split? found least.1 with rfl | earlier
    · exact found
    · exact absurd earlier (List.lex_asymm Nat.lt_asymm later)

/-! ## What the chart says -/

/-- A token stands for a part: it is read there, it is empty, or the chart holds it. -/
def Matches (chart : Chart) : Token → (first last : Nat) → Prop
  | .nonTerminal name, first, last => (chart.get? ⟨name, first, last⟩).isSome = true
  | .terminal name, first, last => last = first + 1 ∧ chart.input[first]? = some name
  | .empty, first, last => first = last

theorem fits_iff {token : Token} {first last : Nat} :
    chart.fits token first last = true ↔ Matches chart token first last := by
  cases token <;> simp [fits, Matches]

/-- One end for each token, none before an earlier one and the last one at the stop, so that each
token stands for what is between the end before it and its own. -/
structure Divides (holds : Token → Nat → Nat → Prop) (tokens : List Token) (start stop : Nat)
    (ends : List Nat) : Prop where
  size : ends.length = tokens.length
  ascending : (start :: ends).Pairwise (· ≤ ·)
  reaches : (start :: ends).getLast? = some stop
  between : ∀ (index : Nat) (token : Token) (first last : Nat), tokens[index]? = some token →
    (start :: ends)[index]? = some first → ends[index]? = some last → holds token first last

section Divides

variable {holds : Token → Nat → Nat → Prop} {token : Token} {rest : List Token} {middle : Nat}
  {ends later : List Nat}

theorem divides_nil_iff : Divides holds [] start stop ends ↔ start = stop ∧ ends = [] := by
  constructor
  · intro divides
    have none := List.eq_nil_of_length_eq_zero divides.size
    have reaches := divides.reaches
    rw [none] at reaches
    exact ⟨Option.some.inj reaches, none⟩
  · rintro ⟨rfl, rfl⟩
    exact ⟨rfl, List.pairwise_singleton _ _, rfl, fun _ _ _ _ missing => nomatch missing⟩

theorem Divides.le (divides : Divides holds tokens start stop ends) : start ≤ stop := by
  rcases List.mem_cons.mp (List.mem_of_getLast? divides.reaches) with same | later
  · exact Nat.le_of_eq same.symm
  · exact List.rel_of_pairwise_cons divides.ascending later

theorem Divides.cons (after : start ≤ middle) (here : holds token start middle)
    (divides : Divides holds rest middle stop later) :
    Divides holds (token :: rest) start stop (middle :: later) where
  size := congrArg (· + 1) divides.size
  ascending := by
    refine List.pairwise_cons.mpr ⟨fun last member => ?_, divides.ascending⟩
    rcases List.mem_cons.mp member with rfl | member
    · exact after
    · exact Nat.le_trans after (List.rel_of_pairwise_cons divides.ascending member)
  reaches := by rw [List.getLast?_cons_cons, divides.reaches]
  between := by
    intro index other first last found before own
    cases index with
    | zero =>
        cases found
        cases before
        cases own
        exact here
    | succ index => exact divides.between index other first last found before own

theorem divides_cons_iff : Divides holds (token :: rest) start stop ends ↔
    ∃ middle later, ends = middle :: later ∧ start ≤ middle ∧ middle ≤ stop ∧
      holds token start middle ∧ Divides holds rest middle stop later := by
  constructor
  · intro divides
    rcases List.exists_cons_of_length_eq_add_one divides.size with ⟨middle, later, rfl⟩
    rcases List.pairwise_cons.mp divides.ascending with ⟨least, ascending⟩
    have tail : Divides holds rest middle stop later :=
      ⟨Nat.succ.inj divides.size, ascending, List.getLast?_cons_cons ▸ divides.reaches,
        fun index => divides.between (index + 1)⟩
    exact ⟨middle, later, rfl, least middle List.mem_cons_self, tail.le,
      divides.between 0 token start middle rfl rfl rfl, tail⟩
  · intro found
    rcases found with ⟨middle, later, rfl, after, _, here, divides⟩
    exact divides.cons after here

theorem ends_iff_divides :
    Ends chart tokens start stop ends ↔ Divides (Matches chart) tokens start stop ends := by
  induction tokens generalizing start ends with
  | nil => exact divides_nil_iff.symm
  | cons token rest induction => simp only [Ends, divides_cons_iff, fits_iff, induction]

end Divides

/-- Whatever the chart holds, a part is split among tokens if there are ends at all. They are then
the first ends in lexicographic order. -/
theorem split_exact (chart : Chart) (alternative : Alternative) (start stop : Nat) :
    ((chart.split? alternative start stop).isSome = true ↔
      ∃ ends, Divides (Matches chart) alternative start stop ends) ∧
    ∀ ends, chart.split? alternative start stop = some ends ↔
      Divides (Matches chart) alternative start stop ends ∧
        ∀ others, Divides (Matches chart) alternative start stop others →
          others = ends ∨ List.Lex (· < ·) ends others := by
  simp only [← ends_iff_divides]
  exact ⟨isSome_split?_iff, fun ends => split?_eq_some_iff⟩

/-- The first `N` ends where it starts and the last one where it stops, as `S` has all the rest. -/
example (grammar : Grammar) : Chart.split?
    ⟨grammar, ["a", "b"], [("N", 0, 0), ("N", 2, 2), ("S", 0, 2)].map fun span =>
      (⟨span.1, span.2.1, span.2.2⟩, ⟨0, []⟩)⟩
    [.nonTerminal "N", .nonTerminal "S", .nonTerminal "N"] 0 2 = some [0, 2, 2] := rfl

end FormalLanguages.Grammar.Chart
