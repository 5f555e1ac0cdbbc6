import FormalLanguages.Proofs.Automaton.Completion
import FormalLanguages.Proofs.Automaton.Equivalence.Table

namespace FormalLanguages.Automaton.StateEquivalence.Comparison

/-! # Refinement finds all pairs that can be told apart

A pair is refuted only where some word tells its states apart. Each round refutes a pair
or leaves none that could be refuted, and the pairs that remain then agree on every word. -/

variable {comparison : Comparison} {table : Table} {progress : Refinement}
  {left right : String} {word : List String}

/-- No word tells two states apart. -/
def Alike (comparison : Comparison) (left right : String) : Prop :=
  ∀ word, comparison.left.AcceptsFrom left word ↔ comparison.right.AcceptsFrom right word

/-- What the automata have to be, once they are completed. -/
structure Sound (comparison : Comparison) : Prop where
  left : comparison.left.Total
  right : comparison.right.Total
  alphabet : comparison.right.alphabet = comparison.left.alphabet
  symmetric : comparison.symmetric = true → comparison.right = comparison.left

/-! ## Refuting a pair -/

theorem refuted?_eq_none_iff : comparison.refuted? table left right = none ↔
    ∀ symbol, symbol ∈ comparison.left.alphabet →
      ∀ leftTarget, comparison.left.target? left (.symbol symbol) = some leftTarget →
      ∀ rightTarget, comparison.right.target? right (.symbol symbol) = some rightTarget →
        table.get? leftTarget rightTarget ≠ some false := by
  rw [refuted?, List.findSome?_eq_none_iff]
  refine forall_congr' fun symbol => imp_congr_right fun _ => ?_
  cases comparison.left.target? left (.symbol symbol) <;>
    cases comparison.right.target? right (.symbol symbol) <;> simp

theorem of_refuted?_eq_some {symbol leftTarget rightTarget : String}
    (found : comparison.refuted? table left right = some (symbol, leftTarget, rightTarget)) :
    Edge.mk (.symbol symbol) leftTarget ∈ comparison.left.edges left ∧
      Edge.mk (.symbol symbol) rightTarget ∈ comparison.right.edges right ∧
      table.get? leftTarget rightTarget = some false := by
  rw [refuted?] at found
  rcases List.exists_of_findSome?_eq_some found with ⟨other, _, found⟩
  cases leads : comparison.left.target? left (.symbol other) with
  | none => simp [leads] at found
  | some first =>
      cases follows : comparison.right.target? right (.symbol other) with
      | none => simp [leads, follows] at found
      | some second =>
          simp only [leads, follows, Option.bind_eq_bind, Option.bind_some] at found
          split at found
          case isFalse => cases found
          case isTrue refuted =>
            cases found
            exact ⟨edge_of_target? leads, edge_of_target? follows, refuted⟩

/-- What holds of every table on the way. -/
structure Sensible (comparison : Comparison) (table : Table) : Prop where
  spans : table.Spans comparison.left.states comparison.right.states
  apart : ∀ left right, table.get? left right = some false → ¬ comparison.Alike left right
  agrees : ∀ left right, table.get? left right = some true →
    (left ∈ comparison.left.accepting ↔ right ∈ comparison.right.accepting)

theorem sensible_initial (sound : comparison.Sound) :
    comparison.Sensible (Table.initial comparison.left comparison.right) where
  spans := Table.spans_initial _ _
  apart left right refuted alike := by
    rw [Table.get?_initial] at refuted
    split at refuted
    case isFalse => cases refuted
    case isTrue =>
      have same := alike []
      rw [sound.left.deterministic.acceptsFrom_nil_iff,
        sound.right.deterministic.acceptsFrom_nil_iff] at same
      simp [isAccepting, same] at refuted
  agrees left right equal := by
    rw [Table.get?_initial] at equal
    split at equal
    case isFalse => cases equal
    case isTrue => simpa [isAccepting] using equal

theorem get?_refute_eq_some_true {first second : String}
    (holds : (table.refute first second).get? left right = some true) :
    table.get? left right = some true ∧ ¬ (left = first ∧ right = second) := by
  rw [Table.get?_refute] at holds
  split at holds
  case isTrue => cases found : table.get? left right <;> simp [found] at holds
  case isFalse different => exact ⟨holds, different⟩

theorem Sensible.refuteOne (sensible : comparison.Sensible table)
    (apart : ¬ comparison.Alike left right) : comparison.Sensible (table.refute left right) where
  spans := sensible.spans.refute
  apart first second refuted := by
    rw [Table.get?_refute] at refuted
    split at refuted
    case isTrue same => exact same.1 ▸ same.2 ▸ apart
    case isFalse => exact sensible.apart first second refuted
  agrees first second holds := sensible.agrees first second (get?_refute_eq_some_true holds).1

theorem Sensible.refute (sensible : comparison.Sensible table) (sound : comparison.Sound)
    (apart : ¬ comparison.Alike left right) :
    comparison.Sensible (comparison.refute table left right) := by
  rw [Comparison.refute]
  split
  case isFalse => exact sensible.refuteOne apart
  case isTrue symmetric =>
    have same := sound.symmetric symmetric
    refine (sensible.refuteOne apart).refuteOne fun alike => apart fun word => ?_
    have turned := alike word
    rw [same] at turned ⊢
    exact turned.symm

/-! ## Rounds -/

theorem mem_truePairs_refute {pair : String × String}
    (member : pair ∈ (comparison.refute table left right).truePairs) :
    pair ∈ table.truePairs ∧ pair ≠ (left, right) := by
  rcases pair with ⟨first, second⟩
  have holds := Table.mem_truePairs.mp member
  have once : (table.refute left right).get? first second = some true := by
    rw [refute] at holds
    split at holds
    case isTrue => exact (get?_refute_eq_some_true holds).1
    case isFalse => exact holds
  rcases get?_refute_eq_some_true once with ⟨before, different⟩
  refine ⟨Table.mem_truePairs.mpr before, fun same => different ?_⟩
  exact ⟨congrArg Prod.fst same, congrArg Prod.snd same⟩

theorem length_truePairs_refute (holds : table.get? left right = some true) :
    (comparison.refute table left right).truePairs.length < table.truePairs.length := by
  have nodup : ((left, right) :: (comparison.refute table left right).truePairs).Nodup :=
    List.nodup_cons.mpr ⟨fun member => (mem_truePairs_refute member).2 rfl,
      Table.nodup_truePairs _⟩
  refine Reachable.length_le_of_nodup nodup fun pair member => ?_
  rcases List.mem_cons.mp member with rfl | member
  · exact Table.mem_truePairs.mpr holds
  · exact (mem_truePairs_refute member).1

def refutedBy (comparison : Comparison) (progress : Refinement)
    (left right symbol leftTarget rightTarget : String) : Refinement :=
  let table := comparison.refute progress.table left right
  { progress with
    table
    refutations := ⟨left, right, symbol, leftTarget, rightTarget, table⟩ :: progress.refutations }

/-- All that examining a pair can do. -/
theorem examine_cases (comparison : Comparison) (progress : Refinement) (left right : String) :
    (comparison.examine progress (left, right) = progress ∧
      (progress.table.get? left right = some true →
        comparison.refuted? progress.table left right = none)) ∨
    ∃ symbol leftTarget rightTarget, progress.table.get? left right = some true ∧
      comparison.refuted? progress.table left right = some (symbol, leftTarget, rightTarget) ∧
      comparison.examine progress (left, right) =
        comparison.refutedBy progress left right symbol leftTarget rightTarget := by
  rw [examine]
  dsimp only
  split
  case isTrue other => exact .inl ⟨rfl, fun holds => absurd holds other⟩
  case isFalse holds =>
    have holds := Classical.not_not.mp holds
    cases found : comparison.refuted? progress.table left right with
    | none => exact .inl ⟨rfl, fun _ => rfl⟩
    | some refuted => exact .inr ⟨_, _, _, holds, rfl, rfl⟩

/-- Each refutation is paid for by a pair that was not told apart before. -/
structure Advances (before after : Refinement) : Prop where
  more : before.refutations.length < after.refutations.length
  bounded : after.table.truePairs.length < before.table.truePairs.length

theorem advances_refutedBy {symbol leftTarget rightTarget : String}
    (holds : progress.table.get? left right = some true) :
    Advances progress (comparison.refutedBy progress left right symbol leftTarget rightTarget) :=
  ⟨Nat.lt_succ_self _, length_truePairs_refute holds⟩

theorem Advances.trans {before between after : Refinement} (first : Advances before between)
    (second : Advances between after) : Advances before after :=
  ⟨Nat.lt_trans first.more second.more, Nat.lt_trans second.bounded first.bounded⟩

/-- Nothing that was not told apart can be refuted. -/
def Stable (comparison : Comparison) (table : Table) : Prop :=
  ∀ left right, table.get? left right = some true → comparison.refuted? table left right = none

theorem foldl_examine (comparison : Comparison) (pairs : List (String × String))
    (progress : Refinement) :
    (pairs.foldl comparison.examine progress = progress ∧
      ∀ left right, (left, right) ∈ pairs → progress.table.get? left right = some true →
        comparison.refuted? progress.table left right = none) ∨
    Advances progress (pairs.foldl comparison.examine progress) := by
  induction pairs generalizing progress with
  | nil => exact .inl ⟨rfl, nofun⟩
  | cons pair rest induction =>
      rcases pair with ⟨left, right⟩
      rw [List.foldl_cons]
      rcases comparison.examine_cases progress left right with
        ⟨same, none⟩ | ⟨symbol, leftTarget, rightTarget, holds, _, same⟩
      · rw [same]
        refine (induction progress).imp_left fun ⟨unchanged, others⟩ => ⟨unchanged, ?_⟩
        intro first second member
        rcases List.mem_cons.mp member with own | later
        · cases own
          exact none
        · exact others first second later
      · have advances : Advances progress (comparison.examine progress (left, right)) :=
          same ▸ advances_refutedBy holds
        rcases induction (comparison.examine progress (left, right)) with ⟨unchanged, _⟩ | more
        · exact .inr (unchanged.symm ▸ advances)
        · exact .inr (advances.trans more)

theorem stable_refineWithin {rounds : Nat} (enough : progress.table.truePairs.length ≤ rounds) :
    comparison.Stable (comparison.refineWithin rounds progress).table := by
  -- A round that refutes something leaves fewer pairs, so the rounds do not run out.
  induction rounds generalizing progress with
  | zero =>
      intro left right holds
      have member := Table.mem_truePairs.mpr holds
      rw [refineWithin, List.length_eq_zero_iff.mp (Nat.le_zero.mp enough)] at member
      cases member
  | succ rounds induction =>
      rw [refineWithin]
      rcases comparison.foldl_examine progress.table.truePairs progress with
        ⟨same, none⟩ | advances
      · rw [round, same, if_pos rfl]
        exact fun left right holds => none left right (Table.mem_truePairs.mpr holds) holds
      · have advances : Advances progress (comparison.round progress) := advances
        rw [if_neg (Nat.ne_of_gt advances.more)]
        exact induction (Nat.le_of_lt_succ (Nat.lt_of_lt_of_le advances.bounded enough))

theorem not_alike_of_refuted (sound : comparison.Sound) (sensible : comparison.Sensible table)
    {symbol leftTarget rightTarget : String}
    (found : comparison.refuted? table left right = some (symbol, leftTarget, rightTarget)) :
    ¬ comparison.Alike left right := by
  rcases of_refuted?_eq_some found with ⟨leftEdge, rightEdge, refuted⟩
  refine fun alike => sensible.apart leftTarget rightTarget refuted fun word => ?_
  rw [← sound.left.deterministic.acceptsFrom_cons_of_edge leftEdge,
    ← sound.right.deterministic.acceptsFrom_cons_of_edge rightEdge]
  exact alike (symbol :: word)

theorem sensible_examine (sound : comparison.Sound) (sensible : comparison.Sensible progress.table)
    (pair : String × String) : comparison.Sensible (comparison.examine progress pair).table := by
  rcases pair with ⟨left, right⟩
  rcases comparison.examine_cases progress left right with
    ⟨same, _⟩ | ⟨symbol, leftTarget, rightTarget, _, found, same⟩
  · exact same.symm ▸ sensible
  · rw [same]
    exact sensible.refute sound (not_alike_of_refuted sound sensible found)

/-- What examining any pair keeps, all rounds keep. -/
theorem refineWithin_keeps {holds : Refinement → Prop}
    (keeps : ∀ progress pair, holds progress → holds (comparison.examine progress pair))
    (rounds : Nat) (known : holds progress) : holds (comparison.refineWithin rounds progress) := by
  induction rounds generalizing progress with
  | zero => exact known
  | succ rounds induction =>
      have next : holds (comparison.round progress) :=
        List.foldlRecOn _ _ known fun _ before pair _ => keeps _ pair before
      rw [refineWithin]
      split
      · exact known
      · exact induction next

theorem sensible_refineWithin (sound : comparison.Sound)
    (sensible : comparison.Sensible progress.table) (rounds : Nat) :
    comparison.Sensible (comparison.refineWithin rounds progress).table := by
  have keeps (progress : Refinement) (pair : String × String)
      (before : comparison.Sensible progress.table) :
      comparison.Sensible (comparison.examine progress pair).table :=
    sensible_examine sound before pair
  exact refineWithin_keeps keeps rounds sensible

/-! ## The finished table -/

theorem alike_of_stable (sound : comparison.Sound) (sensible : comparison.Sensible table)
    (stable : comparison.Stable table) (holds : table.get? left right = some true) :
    comparison.Alike left right := by
  intro word
  -- The states differ along the word, but the table still holds for the pair that is reached.
  induction word generalizing left right with
  | nil =>
      rw [sound.left.deterministic.acceptsFrom_nil_iff,
        sound.right.deterministic.acceptsFrom_nil_iff]
      exact sensible.agrees left right holds
  | cons symbol word induction =>
      by_cases known : symbol ∈ comparison.left.alphabet
      · have declared := sensible.spans.isSome_get?_iff.mp (Option.isSome_of_eq_some holds)
        rcases sound.left.edge left declared.1 symbol known with ⟨leftTarget, leftEdge⟩
        rcases sound.right.edge right declared.2 symbol (sound.alphabet ▸ known) with
          ⟨rightTarget, rightEdge⟩
        rw [sound.left.deterministic.acceptsFrom_cons_of_edge leftEdge,
          sound.right.deterministic.acceptsFrom_cons_of_edge rightEdge]
        apply induction
        have kept := refuted?_eq_none_iff.mp (stable left right holds) symbol known
          leftTarget (sound.left.deterministic.target?_eq_some_iff.mpr leftEdge)
          rightTarget (sound.right.deterministic.target?_eq_some_iff.mpr rightEdge)
        have cell := sensible.spans.isSome_get?_iff.mpr
          ⟨sound.left.valid.targets _ _ _ leftEdge, sound.right.valid.targets _ _ _ rightEdge⟩
        rcases Option.isSome_iff_exists.mp cell with ⟨value, found⟩
        cases value with
        | false => exact absurd found kept
        | true => exact found
      · exact iff_of_false (sound.left.valid.not_acceptsFrom known)
          (sound.right.valid.not_acceptsFrom (sound.alphabet.symm ▸ known))

def hidden (progress : Refinement) : Option String × Option String :=
  (progress.hiddenRow, progress.hiddenColumn)

theorem hidden_refineWithin (rounds : Nat) (progress : Refinement) :
    hidden (comparison.refineWithin rounds progress) = hidden progress := by
  have keeps (later : Refinement) (pair : String × String) (same : hidden later = hidden progress) :
      hidden (comparison.examine later pair) = hidden progress := by
    rcases pair with ⟨left, right⟩
    rcases comparison.examine_cases later left right with ⟨unchanged, _⟩ | ⟨_, _, _, _, _, refuted⟩
    · rw [unchanged, same]
    · rw [refuted]
      exact same
  exact refineWithin_keeps keeps rounds rfl

section Refine

variable (hiddenRow hiddenColumn : Option String)

theorem hidden_refine (comparison : Comparison) :
    hidden (comparison.refine hiddenRow hiddenColumn) = (hiddenRow, hiddenColumn) :=
  hidden_refineWithin _ _

theorem result_refine : (comparison.refine hiddenRow hiddenColumn).result =
    (comparison.refine hiddenRow hiddenColumn).table.without hiddenRow hiddenColumn := by
  have same := comparison.hidden_refine hiddenRow hiddenColumn
  have row : (comparison.refine hiddenRow hiddenColumn).hiddenRow = hiddenRow :=
    congrArg Prod.fst same
  have column : (comparison.refine hiddenRow hiddenColumn).hiddenColumn = hiddenColumn :=
    congrArg Prod.snd same
  rw [Refinement.result, Refinement.shown, row, column]

theorem sensible_refine (sound : comparison.Sound) :
    comparison.Sensible (comparison.refine hiddenRow hiddenColumn).table :=
  sensible_refineWithin sound (sensible_initial sound) _

theorem get?_refine (sound : comparison.Sound) {value : Bool}
    (found : (comparison.refine hiddenRow hiddenColumn).table.get? left right = some value) :
    value = true ↔ comparison.Alike left right := by
  have sensible := comparison.sensible_refine hiddenRow hiddenColumn sound
  cases value with
  | false => exact iff_of_false Bool.false_ne_true (sensible.apart left right found)
  | true =>
      have stable : comparison.Stable (comparison.refine hiddenRow hiddenColumn).table :=
        stable_refineWithin (Nat.le_refl _)
      exact iff_of_true rfl (alike_of_stable sound sensible stable found)

end Refine

/-! ## Automata that were completed -/

section Completed

variable {first second : Automaton} {completedFirst completedSecond : Completed} {symmetric : Bool}
  (completesFirst : Completes first completedFirst)
  (completesSecond : Completes second completedSecond)
  (sound : Sound ⟨completedFirst.automaton, completedSecond.automaton, symmetric⟩)

include completesFirst completesSecond sound

theorem spans_result : Table.Spans
    (refine ⟨completedFirst.automaton, completedSecond.automaton, symmetric⟩
      completedFirst.sink completedSecond.sink).result first.states second.states := by
  have spans := (sensible_refine completedFirst.sink completedSecond.sink sound).spans.without
    completedFirst.sink completedSecond.sink
  rw [result_refine]
  rwa [completesFirst.filter_states, completesSecond.filter_states] at spans

theorem get?_result (validFirst : first.Valid) (validSecond : second.Valid) {value : Bool}
    (found : Table.get? (refine ⟨completedFirst.automaton, completedSecond.automaton, symmetric⟩
      completedFirst.sink completedSecond.sink).result left right = some value) :
    value = true ↔ ∀ word, first.AcceptsFrom left word ↔ second.AcceptsFrom right word := by
  rw [result_refine, Table.get?_without_eq_some_iff] at found
  rw [get?_refine _ _ sound found.2.2]
  exact forall_congr' fun word =>
    iff_congr (completesFirst.acceptsFrom_iff validFirst) (completesSecond.acceptsFrom_iff validSecond)

end Completed

end FormalLanguages.Automaton.StateEquivalence.Comparison
