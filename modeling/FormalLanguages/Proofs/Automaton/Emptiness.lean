import FormalLanguages.Proofs.Automaton.Pruning

namespace FormalLanguages.Automaton

/-! # The search for an accepting state

The search comes to an end, since a state waits only once for each edge that leads to it. It
finds an accepting state exactly if some word leads to one, so what it says agrees with running
the automaton on all words. -/

variable {automaton : Automaton} {visited waiting : List String} {state : String}

/-! ## The end of the search

An edge is followed when its source is visited, and from then on its target waits. So a round
that does not pass over a state trades the edges of the state for waiting targets. -/

/-- How many edges leave states that are still to be visited. -/
@[simp] def unfollowed (visited : List String) : List (String × SortedSet Edge) → Nat
  | [] => 0
  | entry :: rest => (if entry.1 ∈ visited then 0 else entry.2.size) + unfollowed visited rest

theorem unfollowed_nil (automaton : Automaton) :
    unfollowed [] automaton.rows.entries = automaton.edgeCount := by
  have counted (entries : List (String × SortedSet Edge)) (count : Nat) :
      (entries.map Prod.snd).foldl (fun count row => count + row.size) count =
        count + unfollowed [] entries := by
    induction entries generalizing count with
    | nil => rfl
    | cons entry rest induction =>
        rw [List.map_cons, List.foldl_cons, induction, unfollowed, if_neg List.not_mem_nil,
          Nat.add_assoc]
  exact ((counted automaton.rows.entries 0).trans (Nat.zero_add _)).symm

theorem unfollowed_of_not_mem {entries : List (String × SortedSet Edge)}
    (absent : state ∉ entries.map Prod.fst) :
    unfollowed (state :: visited) entries = unfollowed visited entries := by
  induction entries with
  | nil => rfl
  | cons entry rest induction =>
      rcases not_or.mp (List.mem_cons.not.mp absent) with ⟨different, absent⟩
      simp [induction absent, Ne.symm different]

theorem unfollowed_eq_add {entries : List (String × SortedSet Edge)}
    (nodup : (entries.map Prod.fst).Nodup) (new : state ∉ visited) :
    unfollowed visited entries =
      ((Entries.lookup state entries).getD ∅).size + unfollowed (state :: visited) entries := by
  induction entries with
  | nil => rfl
  | cons entry rest induction =>
      rcases List.nodup_cons.mp nodup with ⟨absent, nodupRest⟩
      rw [unfollowed, unfollowed, Entries.lookup]
      by_cases same : entry.1 = state
      · subst same
        simp [new, unfollowed_of_not_mem absent]
      · simp only [same, List.mem_cons, false_or, if_false, induction nodupRest]
        omega

/-- Visiting a state makes at most its edges wait. -/
theorem unfollowed_visit (new : state ∉ visited) :
    (automaton.followers state).length + unfollowed (state :: visited) automaton.rows.entries =
      unfollowed visited automaton.rows.entries := by
  rw [unfollowed_eq_add automaton.rows.nodup_keyList new, followers, List.length_map]
  rfl

theorem findsAccepting?_isSome {rounds : Nat}
    (enough : waiting.length + unfollowed visited automaton.rows.entries < rounds) :
    (automaton.findsAccepting? rounds visited waiting).isSome = true := by
  fun_induction findsAccepting? automaton rounds visited waiting with
  | case1 => exact absurd enough (Nat.not_lt_zero _)
  | case2 => rfl
  | case3 rounds visited state waiting old induction =>
      rw [List.length_cons] at enough
      exact induction (by omega)
  | case4 => rfl
  | case5 rounds visited state waiting new rejecting found induction =>
      apply induction
      have traded : (automaton.followers state).length +
          unfollowed (state :: visited) automaton.rows.entries =
            unfollowed visited automaton.rows.entries := unfollowed_visit new
      have fewer : found.length ≤ (automaton.followers state).length := List.length_filter_le _ _
      rw [List.length_cons] at enough
      rw [List.length_append, List.length_reverse]
      omega

/-! ## What the search finds -/

/-- What holds after every round. A state that is found is reachable, and one that waits no
longer has been visited and does not accept. -/
structure Searched (automaton : Automaton) (visited waiting : List String) : Prop where
  begun : automaton.starting ∈ visited ∨ automaton.starting ∈ waiting
  reached : ∀ state, state ∈ waiting →
    Reachable automaton.followers [automaton.starting] state
  followed : ∀ source, source ∈ visited → ∀ target, target ∈ automaton.followers source →
    target ∈ visited ∨ target ∈ waiting
  rejecting : ∀ state, state ∈ visited → ¬ state ∈ automaton.accepting

namespace Searched

theorem start (automaton : Automaton) : automaton.Searched [] [automaton.starting] where
  begun := .inr List.mem_cons_self
  reached _ member := .seed member
  followed _ none := absurd none List.not_mem_nil
  rejecting _ none := absurd none List.not_mem_nil

/-- Nothing is lost by passing over a state that has been visited. -/
theorem skip (searched : automaton.Searched visited (state :: waiting)) (old : state ∈ visited) :
    automaton.Searched visited waiting := by
  have known {other : String} (either : other ∈ visited ∨ other ∈ state :: waiting) :
      other ∈ visited ∨ other ∈ waiting := by
    rcases either with before | listed
    · exact .inl before
    · rcases List.mem_cons.mp listed with rfl | later
      · exact .inl old
      · exact .inr later
  exact ⟨known searched.begun, fun other member =>
      searched.reached other (List.mem_cons_of_mem _ member),
    fun source inVisited target edge => known (searched.followed source inVisited target edge),
    searched.rejecting⟩

theorem visit (searched : automaton.Searched visited (state :: waiting))
    (rejects : ¬ state ∈ automaton.accepting) :
    automaton.Searched (state :: visited)
      (((automaton.followers state).filter (· ∉ state :: visited)).reverse ++ waiting) := by
  have known {other : String} (either : other ∈ visited ∨ other ∈ state :: waiting) :
      other ∈ state :: visited ∨
        other ∈ ((automaton.followers state).filter (· ∉ state :: visited)).reverse ++ waiting := by
    rcases either with before | listed
    · exact .inl (List.mem_cons_of_mem _ before)
    · rcases List.mem_cons.mp listed with rfl | later
      · exact .inl List.mem_cons_self
      · exact .inr (List.mem_append_right _ later)
  refine ⟨known searched.begun, fun other member => ?_, fun source inVisited target edge => ?_,
    fun other member => ?_⟩
  · rcases List.mem_append.mp member with found | later
    · have follower := (List.mem_filter.mp (List.mem_reverse.mp found)).1
      exact .follow (searched.reached state List.mem_cons_self) follower
    · exact searched.reached other (List.mem_cons_of_mem _ later)
  · rcases List.mem_cons.mp inVisited with rfl | before
    · by_cases seen : target ∈ source :: visited
      · exact .inl seen
      · refine .inr (List.mem_append_left _ (List.mem_reverse.mpr ?_))
        exact List.mem_filter.mpr ⟨edge, decide_eq_true seen⟩
    · exact known (searched.followed source before target edge)
  · rcases List.mem_cons.mp member with rfl | before
    · exact rejects
    · exact searched.rejecting other before

/-- If no state waits any longer, all that can be reached has been visited. -/
theorem not_accepting (searched : automaton.Searched visited [])
    (reached : Reachable automaton.followers [automaton.starting] state) :
    ¬ state ∈ automaton.accepting := by
  apply searched.rejecting
  induction reached with
  | seed member =>
      rw [List.mem_singleton.mp member]
      exact searched.begun.resolve_right List.not_mem_nil
  | follow _ edge induction =>
      exact (searched.followed _ induction _ edge).resolve_right List.not_mem_nil

theorem verdict_iff {rounds : Nat} {verdict : Bool} (searched : automaton.Searched visited waiting)
    (ended : automaton.findsAccepting? rounds visited waiting = some verdict) :
    verdict = true ↔ ∃ state, state ∈ automaton.accepting ∧
      Reachable automaton.followers [automaton.starting] state := by
  fun_induction findsAccepting? automaton rounds visited waiting with
  | case1 => cases ended
  | case2 =>
      cases ended
      apply iff_of_false Bool.false_ne_true
      rintro ⟨state, accepting, reached⟩
      exact searched.not_accepting reached accepting
  | case3 rounds visited state waiting old induction => exact induction (searched.skip old) ended
  | case4 rounds visited state waiting new accepting =>
      cases ended
      exact iff_of_true rfl
        ⟨state, of_decide_eq_true accepting, searched.reached state List.mem_cons_self⟩
  | case5 rounds visited state waiting new rejecting found induction =>
      exact induction (searched.visit fun accepting => rejecting (decide_eq_true accepting)) ended

end Searched

/-! ## Emptiness -/

theorem exists_accepted_iff : (∃ word, automaton.accepts word = true) ↔
    ∃ state, state ∈ automaton.accepting ∧
      Reachable automaton.followers [automaton.starting] state := by
  simp only [accepts_iff, Accepts, AcceptsFrom, reachable_followers_iff]
  rw [exists_comm]
  exact exists_congr fun _ => exists_and_left

/-- Whatever the automaton is like, the search has come to an end once there were two more
rounds than there are edges, and more rounds change nothing. It comes to an end without an
accepting state exactly if no word is accepted. -/
theorem isEmpty_exact (automaton : Automaton) :
    (∀ rounds, automaton.edgeCount + 2 ≤ rounds →
      automaton.findsAccepting? rounds [] [automaton.starting] = some (!automaton.isEmpty)) ∧
    (automaton.isEmpty = true ↔ ∀ word, automaton.accepts word = false) := by
  have ends {rounds : Nat} (enough : automaton.edgeCount + 2 ≤ rounds) :
      ∃ verdict, automaton.findsAccepting? rounds [] [automaton.starting] = some verdict ∧
        (verdict = true ↔ ∃ word, automaton.accepts word = true) := by
    have suffice : [automaton.starting].length + unfollowed [] automaton.rows.entries < rounds := by
      rw [unfollowed_nil, List.length_singleton]
      omega
    rcases Option.isSome_iff_exists.mp (findsAccepting?_isSome suffice) with ⟨verdict, ended⟩
    exact ⟨verdict, ended, ((Searched.start automaton).verdict_iff ended).trans
      exists_accepted_iff.symm⟩
  rcases ends (Nat.le_refl _) with ⟨verdict, ended, exact⟩
  have isEmpty_eq : automaton.isEmpty = !verdict := by
    rw [isEmpty, ended]
    cases verdict <;> rfl
  rw [isEmpty_eq, Bool.not_not]
  constructor
  · intro rounds enough
    rcases ends enough with ⟨other, endedLater, exactLater⟩
    rw [endedLater, Bool.eq_iff_iff.mpr (exactLater.trans exact.symm)]
  · rw [Bool.not_eq_true', ← Bool.not_eq_true, exact, not_exists]
    exact forall_congr' fun word => by rw [Bool.not_eq_true]

/-- Silent edges go round between `s` and `t`, and `t` waits more than once. The state `end`
accepts but is not declared. -/
def silentDetour : Automaton :=
  ofRows "s" ["end"] ["x", "y"]
    [("s", [(.epsilon, ["t"]), (.symbol "x", ["t", "u"])]),
      ("t", [(.epsilon, ["s"])]), ("u", [(.symbol "y", ["t", "end"])])]

example : silentDetour.isEmpty = false ∧ silentDetour.accepts ["x", "y"] = true ∧
    ({ silentDetour with accepting := .ofList ["v"] }).isEmpty = true := by
  decide

end FormalLanguages.Automaton
