import FormalLanguages.Proofs.Automaton.CrossEquivalence
import FormalLanguages.Proofs.Automaton.Merging
import FormalLanguages.Proofs.Automaton.Pruning
import Mathlib.Combinatorics.Enumerative.DoubleCounting

namespace FormalLanguages.Automaton

/-! # Minimisation gives the smallest automaton

In a complete automaton in which every state is reached and no two states are alike, the
states are told apart by the words that lead to them. Any other automaton for the same
words has to tell those words apart as well. -/

variable {automaton other result : Automaton} {name : String → String} {state : String}
  {word : List String}

/-! ## What the merged automaton accepts -/

namespace Minimal.Merges

variable (merges : Merges automaton result name) (complete : automaton.Total)

include merges complete

theorem valid : result.Valid where
  starting := merges.starting ▸ (merges.states _).mpr ⟨_, complete.valid.starting, rfl⟩
  accepting state member := by
    rcases (merges.accepting state).mp member with ⟨old, accepting, same⟩
    exact (merges.states state).mpr ⟨old, complete.valid.accepting old accepting, same⟩
  symbols state symbol target edge := by
    rcases (merges.edges state _).mp edge with ⟨_, _, _, old, _, ⟨⟩⟩
    exact merges.alphabet ▸ complete.valid.symbols _ _ _ old
  targets state label target edge := by
    rcases (merges.edges state _).mp edge with ⟨_, _, _, old, _, ⟨⟩⟩
    exact (merges.states _).mpr ⟨_, complete.valid.targets _ _ _ old, rfl⟩

theorem deterministic : result.Deterministic where
  loud state target edge := by
    rcases (merges.edges state _).mp edge with ⟨_, _, _, old, _, ⟨⟩⟩
    exact complete.deterministic.loud _ _ old
  unique state label first second toFirst toSecond := by
    rcases (merges.edges state _).mp toFirst with ⟨left, _, leftTarget, leftEdge, same, ⟨⟩⟩
    rcases (merges.edges state _).mp toSecond with ⟨right, _, rightTarget, rightEdge, equal, ⟨⟩⟩
    cases label with
    | epsilon => exact absurd leftEdge (complete.deterministic.loud _ _)
    | symbol symbol =>
        have alike := (merges.alike left right (mem_states_of_edge leftEdge)
          (mem_states_of_edge rightEdge)).mp (same.symm.trans equal)
        exact (merges.alike leftTarget rightTarget (complete.valid.targets _ _ _ leftEdge)
          (complete.valid.targets _ _ _ rightEdge)).mpr
          (alike.targets complete.deterministic leftEdge rightEdge)

theorem total : result.Total where
  valid := merges.valid complete
  deterministic := merges.deterministic complete
  edge state declared symbol known := by
    rcases (merges.states state).mp declared with ⟨old, inside, rfl⟩
    rcases complete.edge old inside symbol (merges.alphabet ▸ known) with ⟨target, edge⟩
    exact ⟨name target, (merges.edges _ _).mpr ⟨old, _, target, edge, rfl, rfl⟩⟩

theorem acceptsFrom_iff (declared : state ∈ automaton.states) :
    result.AcceptsFrom (name state) word ↔ automaton.AcceptsFrom state word := by
  have deterministic := merges.deterministic complete
  induction word generalizing state with
  | nil =>
      rw [deterministic.acceptsFrom_nil_iff, complete.deterministic.acceptsFrom_nil_iff,
        merges.accepting]
      constructor
      · rintro ⟨other, accepting, same⟩
        have alike := (merges.alike state other declared
          (complete.valid.accepting other accepting)).mp same []
        rw [complete.deterministic.acceptsFrom_nil_iff,
          complete.deterministic.acceptsFrom_nil_iff] at alike
        exact alike.mpr accepting
      · exact fun accepting => ⟨state, accepting, rfl⟩
  | cons symbol word induction =>
      rw [deterministic.acceptsFrom_cons_iff]
      constructor
      · rintro ⟨_, edge, accepts⟩
        rcases (merges.edges _ _).mp edge with ⟨other, _, target, old, same, ⟨⟩⟩
        have alike := (merges.alike state other declared (mem_states_of_edge old)).mp same
        refine (alike (symbol :: word)).mpr ?_
        rw [complete.deterministic.acceptsFrom_cons_of_edge old]
        exact (induction (complete.valid.targets _ _ _ old)).mp accepts
      · intro accepts
        rcases complete.deterministic.acceptsFrom_cons_iff.mp accepts with ⟨target, edge, accepts⟩
        exact ⟨name target, (merges.edges _ _).mpr ⟨state, _, target, edge, rfl, rfl⟩,
          (induction (complete.valid.targets _ _ _ edge)).mpr accepts⟩

theorem accepts_iff : result.Accepts word ↔ automaton.Accepts word := by
  rw [Accepts, merges.starting]
  exact merges.acceptsFrom_iff complete complete.valid.starting

omit complete in
theorem path {source target : String} (path : automaton.Path source word target) :
    result.Path (name source) word (name target) := by
  induction path with
  | stay state => exact .stay _
  | skip edge _ induction => exact .skip ((merges.edges _ _).mpr ⟨_, _, _, edge, rfl, rfl⟩) induction
  | consume edge _ induction =>
      exact .consume ((merges.edges _ _).mpr ⟨_, _, _, edge, rfl, rfl⟩) induction

omit complete in
theorem reached (reached : automaton.Reached) : result.Reached := by
  intro state declared
  rcases (merges.states state).mp declared with ⟨old, inside, rfl⟩
  rcases reached old inside with ⟨word, path⟩
  exact ⟨word, merges.starting ▸ merges.path path⟩

end Minimal.Merges

/-! ## The smallest automaton -/

/-- No two states accept the same words. -/
def Reduced (automaton : Automaton) : Prop :=
  ∀ left right, left ∈ automaton.states → right ∈ automaton.states →
    automaton.Alike left right → left = right

/-- Complete, with no state that is never reached and no two that are alike. -/
structure Smallest (automaton : Automaton) : Prop where
  total : automaton.Total
  reached : automaton.Reached
  reduced : automaton.Reduced

theorem Minimal.Merges.reduced (merges : Merges automaton result name)
    (complete : automaton.Total) : result.Reduced := by
  intro left right inLeft inRight alike
  rcases (merges.states left).mp inLeft with ⟨first, inFirst, rfl⟩
  rcases (merges.states right).mp inRight with ⟨second, inSecond, rfl⟩
  refine (merges.alike first second inFirst inSecond).mpr fun word => ?_
  rw [← merges.acceptsFrom_iff complete inFirst, ← merges.acceptsFrom_iff complete inSecond]
  exact alike word

theorem Total.exists_path (total : automaton.Total) {source : String}
    (declared : source ∈ automaton.states)
    (known : ∀ symbol, symbol ∈ word → symbol ∈ automaton.alphabet) :
    ∃ target, target ∈ automaton.states ∧ automaton.Path source word target := by
  induction word generalizing source with
  | nil => exact ⟨source, declared, .stay source⟩
  | cons symbol word induction =>
      rcases total.edge source declared symbol (known symbol List.mem_cons_self) with ⟨middle, edge⟩
      rcases induction (total.valid.targets _ _ _ edge)
        (fun other member => known other (List.mem_cons_of_mem _ member)) with
        ⟨target, inside, path⟩
      exact ⟨target, inside, .consume edge path⟩

theorem Deterministic.acceptsFrom_append_iff (deterministic : automaton.Deterministic)
    {source target : String} {rest : List String} (path : automaton.Path source word target) :
    automaton.AcceptsFrom source (word ++ rest) ↔ automaton.AcceptsFrom target rest := by
  induction path with
  | stay => exact Iff.rfl
  | skip edge _ _ => exact absurd edge (deterministic.loud _ _)
  | consume edge _ induction => exact (deterministic.acceptsFrom_cons_of_edge edge).trans induction

/-- Some word leads to one state in one automaton and to the other in the other. -/
def Meet (automaton other : Automaton) (state partner : String) : Prop :=
  ∃ word, automaton.Path automaton.starting word state ∧ other.Path other.starting word partner

theorem meet_starting : automaton.Meet other automaton.starting other.starting :=
  ⟨[], .stay _, .stay _⟩

theorem Meet.symm {partner : String} (meet : automaton.Meet other state partner) :
    other.Meet automaton partner state :=
  meet.imp fun _ paths => paths.symm

/-- States that meet go on to states that meet. -/
theorem Meet.consume {partner symbol next nextPartner : String}
    (meet : automaton.Meet other state partner)
    (edge : Edge.mk (.symbol symbol) next ∈ automaton.edges state)
    (otherEdge : Edge.mk (.symbol symbol) nextPartner ∈ other.edges partner) :
    automaton.Meet other next nextPartner := by
  rcases meet with ⟨word, path, otherPath⟩
  exact ⟨word ++ [symbol], path.append (.consume edge (.stay _)),
    otherPath.append (.consume otherEdge (.stay _))⟩

section Smallest

variable (total : automaton.Total) (otherTotal : other.Total)

include total otherTotal

theorem exists_meet (reached : automaton.Reached) (alphabet : other.alphabet = automaton.alphabet)
    (declared : state ∈ automaton.states) :
    ∃ partner, partner ∈ other.states ∧ automaton.Meet other state partner := by
  rcases reached state declared with ⟨word, path⟩
  have known : ∀ symbol, symbol ∈ word → symbol ∈ other.alphabet := fun symbol member =>
    alphabet ▸ total.valid.symbols_of_path path member
  rcases otherTotal.exists_path otherTotal.valid.starting known with ⟨partner, inside, follows⟩
  exact ⟨partner, inside, word, path, follows⟩

variable (same : ∀ word, other.Accepts word ↔ automaton.Accepts word)

include same

theorem Meet.acceptsFrom_iff {partner : String} (meet : automaton.Meet other state partner) :
    other.AcceptsFrom partner word ↔ automaton.AcceptsFrom state word := by
  rcases meet with ⟨before, path, follows⟩
  rw [← otherTotal.deterministic.acceptsFrom_append_iff follows,
    ← total.deterministic.acceptsFrom_append_iff path]
  exact same (before ++ word)

theorem Meet.alike {left right partner : String} (meetLeft : automaton.Meet other left partner)
    (meetRight : automaton.Meet other right partner) : automaton.Alike left right := fun _ =>
  (meetLeft.acceptsFrom_iff total otherTotal same).symm.trans
    (meetRight.acceptsFrom_iff total otherTotal same)

theorem size_le_of_reduced (reached : automaton.Reached) (reduced : automaton.Reduced)
    (alphabet : other.alphabet = automaton.alphabet) :
    automaton.states.size ≤ other.states.size := by
  rw [SortedSet.size, SortedSet.size, ← List.toFinset_card_of_nodup (SortedSet.nodup_toList _),
    ← List.toFinset_card_of_nodup (SortedSet.nodup_toList _)]
  -- Each state meets a state of the other automaton, and no two of them meet the same.
  refine Finset.card_le_card_of_forall_subsingleton (automaton.Meet other) ?_ ?_
  · simpa only [List.mem_toFinset, SortedSet.mem_toList] using
      fun _ => exists_meet total otherTotal reached alphabet
  · rintro partner _ left ⟨inLeft, meetLeft⟩ right ⟨inRight, meetRight⟩
    exact reduced left right (List.mem_toFinset.mp inLeft) (List.mem_toFinset.mp inRight)
      (meetLeft.alike total otherTotal same meetRight)

end Smallest

/-! ## What minimising does -/

namespace Minimal

/-- What is left after pruning and completing. -/
def prepared (automaton : Automaton) : Automaton :=
  automaton.withoutUnreachable.completed.automaton

theorem result_construct (automaton : Automaton) :
    (construct automaton).result = merged (prepared automaton) (prepared automaton).classes := by
  rw [construct, prepared]
  rcases automaton.withoutUnreachable.completed with ⟨complete, sink⟩
  rfl

section Prepared

variable (valid : automaton.Valid) (deterministic : automaton.Deterministic)

include valid deterministic

theorem total_prepared : (prepared automaton).Total :=
  (completes_completed _).total valid.withoutUnreachable deterministic.withoutUnreachable

omit deterministic in
theorem accepts_prepared_iff : (prepared automaton).Accepts word ↔ automaton.Accepts word := by
  have completes := completes_completed automaton.withoutUnreachable
  have same : (prepared automaton).Accepts word ↔ automaton.withoutUnreachable.Accepts word := by
    rw [Accepts, prepared, completes.starting]
    exact completes.acceptsFrom_iff valid.withoutUnreachable
  exact same.trans accepts_withoutUnreachable_iff

omit valid deterministic in
theorem alphabet_prepared : (prepared automaton).alphabet = automaton.alphabet :=
  (completes_completed automaton.withoutUnreachable).alphabet

omit valid deterministic in
theorem reached_prepared : (prepared automaton).Reached :=
  (completes_completed _).reached (reached_withoutUnreachable automaton)

theorem merges_construct : Merges (prepared automaton) (construct automaton).result
    (Minimal.nameOf (naming (prepared automaton).classes)) :=
  result_construct automaton ▸ merges_merged (total_prepared valid deterministic)

theorem total_construct : (construct automaton).result.Total :=
  (merges_construct valid deterministic).total (total_prepared valid deterministic)

theorem alphabet_construct : (construct automaton).result.alphabet = automaton.alphabet :=
  (merges_construct valid deterministic).alphabet.trans alphabet_prepared

theorem accepts_construct_iff :
    (construct automaton).result.Accepts word ↔ automaton.Accepts word :=
  ((merges_construct valid deterministic).accepts_iff (total_prepared valid deterministic)).trans
    (accepts_prepared_iff valid)

theorem reached_construct : (construct automaton).result.Reached :=
  (merges_construct valid deterministic).reached reached_prepared

theorem reduced_construct : (construct automaton).result.Reduced :=
  (merges_construct valid deterministic).reduced (total_prepared valid deterministic)

theorem smallest_construct : (construct automaton).result.Smallest where
  total := total_construct valid deterministic
  reached := reached_construct valid deterministic
  reduced := reduced_construct valid deterministic

end Prepared

end Minimal

theorem accepts_eq_iff {left right : Automaton} :
    left.accepts word = right.accepts word ↔ (left.Accepts word ↔ right.Accepts word) := by
  rw [Bool.eq_iff_iff, accepts_iff, accepts_iff]

theorem minimise_eq {automaton : Automaton} (valid : automaton.isValid = true)
    (deterministic : automaton.isDeterministic = true) :
    automaton.minimise = .ok (Minimal.construct automaton) := by
  rw [minimise, requireDeterministic_eq_ok valid deterministic]
  rfl

/-- A valid deterministic automaton, complete or not and with states that are never reached,
is minimised to a valid complete deterministic automaton over the same alphabet that accepts
the same words. No other such automaton has fewer states. -/
theorem minimise_exact (automaton : Automaton) (valid : automaton.isValid = true)
    (deterministic : automaton.isDeterministic = true) :
    ∃ observed, automaton.minimise = .ok observed ∧
      observed.result.isValid = true ∧ observed.result.isComplete = true ∧
      observed.result.alphabet = automaton.alphabet ∧
      (∀ word, observed.result.accepts word = automaton.accepts word) ∧
      ∀ other : Automaton, other.isValid = true → other.isComplete = true →
        other.alphabet = automaton.alphabet →
        (∀ word, other.accepts word = automaton.accepts word) →
        observed.result.states.size ≤ other.states.size := by
  have sound := isValid_iff.mp valid
  have unique := deterministic_iff.mp deterministic
  have total := Minimal.total_construct sound unique
  have alphabet := Minimal.alphabet_construct sound unique
  refine ⟨Minimal.construct automaton, ?_, (total_iff.mp total).1, (total_iff.mp total).2, alphabet,
    fun word => accepts_eq_iff.mpr (Minimal.accepts_construct_iff sound unique), ?_⟩
  · rw [minimise, requireDeterministic_eq_ok valid deterministic]
    rfl
  · intro other otherValid otherComplete otherAlphabet same
    have agrees (word : List String) :
        other.Accepts word ↔ (Minimal.construct automaton).result.Accepts word :=
      (accepts_eq_iff.mp (same word)).trans (Minimal.accepts_construct_iff sound unique).symm
    exact size_le_of_reduced total (total_iff.mpr ⟨otherValid, otherComplete⟩) agrees
      (Minimal.reached_construct sound unique) (Minimal.reduced_construct sound unique)
      (otherAlphabet.trans alphabet.symm)

/-- The classes of `a` with `bc` and of `ab` with `c` would get one name. There are no edges
for `y`, and nothing leads to `d`. -/
def collidingClasses : Automaton :=
  ofRows "a" ["ab", "c"] ["x", "y"]
    [("a", [(.symbol "x", ["ab"])]), ("ab", [(.symbol "x", ["bc"])]),
      ("bc", [(.symbol "x", ["c"])]), ("c", [(.symbol "x", ["a"])]), ("d", [(.symbol "x", ["d"])])]

theorem minimise_collidingClasses :
    collidingClasses.isValid = true ∧ collidingClasses.isDeterministic = true ∧
      ∃ observed, collidingClasses.minimise = .ok observed ∧
        observed.result.isValid = true ∧ observed.result.isComplete = true ∧
        observed.result.alphabet = collidingClasses.alphabet ∧
        (∀ word, observed.result.accepts word = collidingClasses.accepts word) ∧
        ∀ other : Automaton, other.isValid = true → other.isComplete = true →
          other.alphabet = collidingClasses.alphabet →
          (∀ word, other.accepts word = collidingClasses.accepts word) →
          observed.result.states.size ≤ other.states.size :=
  ⟨by decide, by decide, minimise_exact collidingClasses (by decide) (by decide)⟩

end FormalLanguages.Automaton
