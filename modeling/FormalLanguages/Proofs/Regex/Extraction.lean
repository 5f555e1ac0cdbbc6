import FormalLanguages.Proofs.Regex.InitialGraph

namespace FormalLanguages

/-! # An expression for what an automaton accepts

Taking a state out of the graph of an automaton changes nothing about the words that
it accepts. The last graph has a single edge, if it has any. -/

namespace Regex.Elimination

variable {automaton : Automaton} {graph : Graph} {start accept : String} {word : List String}
  {remaining : List String}

theorem AllFit.proper_loopOf {graph : Graph} (fit : AllFit graph start accept remaining)
    (state : String) : Proper (graph.loopOf state) := by
  rw [Graph.loopOf]
  cases edge : graph.edges.get? ⟨state, state⟩ with
  | none => exact .nil
  | some regex => exact (fit _ _ edge).proper.star

theorem AllFit.remove {graph : Graph} (fit : AllFit graph start accept remaining) (state : String) :
    AllFit (graph.remove state) start accept (remaining.erase state) := by
  have spared {name : String} (different : name ≠ state) {special : String}
      (before : name = special ∨ name ∈ remaining) :
      name = special ∨ name ∈ remaining.erase state :=
    before.imp_right (List.mem_erase_of_ne different).mpr
  rw [Graph.remove_eq]
  refine List.foldlRecOn (motive := fun graph => AllFit graph start accept (remaining.erase state))
    _ _ ?_ ?_
  · intro link regex edge
    rcases Graph.get?_without.mp edge with ⟨edge, fromOther, toOther⟩
    have fits := fit link regex edge
    exact ⟨spared fromOther fits.source, spared toOther fits.target, fits.proper⟩
  · rintro built before ⟨source, target, regex⟩ member
    rcases Graph.mem_detours.mp member with
      ⟨first, last, into, fromOther, out, toOther, rfl⟩
    have fitsFirst := fit _ _ into
    have fitsLast := fit _ _ out
    refine Graph.forall_edges_add Fits.merge before
      ⟨spared fromOther fitsFirst.source, spared toOther fitsLast.target, ?_⟩
    exact (fitsFirst.proper.sequence ((fit.proper_loopOf state).sequence fitsLast.proper)).simplify

/-! ## Taking away all states -/

theorem next_mem (graph : Graph) (first : String) (others : List String) :
    next graph first others ∈ first :: others := by
  rw [next]
  induction others generalizing first with
  | nil => exact List.mem_cons_self
  | cons other rest induction =>
      rw [List.foldl_cons]
      rcases List.mem_cons.mp (induction (if precedes graph other first then other else first))
        with same | later
      · rw [same]
        split <;> simp
      · exact List.mem_cons_of_mem _ (List.mem_cons_of_mem _ later)

theorem final_cons (start graph : Graph) (state : String) (removed : List (String × Graph)) :
    final start ((state, graph) :: removed) = final graph removed := by
  rw [final, final, List.getLast?_cons]
  cases removed.getLast? <;> rfl

/-- What each removal keeps, with the removed state no longer remaining, holds in the end
with no state remaining. -/
theorem final_removals {holds : Graph → List String → Prop}
    (keeps : ∀ graph remaining state, holds graph remaining → state ∈ remaining →
      holds (graph.remove state) (remaining.erase state))
    {count : Nat} {graph : Graph} {remaining : List String} (first : holds graph remaining)
    (enough : remaining.length ≤ count) :
    holds (final graph (removals count graph remaining)) [] := by
  induction count generalizing graph remaining with
  | zero => exact List.length_eq_zero_iff.mp (Nat.le_zero.mp enough) ▸ first
  | succ count induction =>
      cases remaining with
      | nil => exact first
      | cons head tail =>
          have member := next_mem graph head tail
          rw [removals, final_cons]
          apply induction (keeps graph _ _ first member)
          rw [List.length_erase_of_mem member]
          exact Nat.sub_le_of_le_add enough

/-! ## Elimination keeps what is accepted -/

/-- What holds of the graph while some states remain. -/
structure Remains (automaton : Automaton) (graph : Graph) (remaining : List String) : Prop where
  start : graph.start = newStart automaton
  accept : graph.accept = newAccept automaton
  accepts : ∀ word, graph.Accepts word ↔ automaton.Accepts word
  inside : remaining ⊆ automaton.states.toList
  fit : AllFit graph (newStart automaton) (newAccept automaton) remaining

theorem remains_initial (valid : automaton.Valid) :
    Remains automaton (initial automaton) automaton.states.toList where
  start := start_initial automaton
  accept := accept_initial automaton
  accepts _ := accepts_initial_iff valid
  inside := List.Subset.refl _
  fit := allFit_initial valid

theorem Remains.remove {state : String} (remains : Remains automaton graph remaining)
    (member : state ∈ remaining) :
    Remains automaton (graph.remove state) (remaining.erase state) where
  start := (graph.start_remove state).trans remains.start
  accept := (graph.accept_remove state).trans remains.accept
  accepts word := by
    have declared : state ∈ automaton.states := remains.inside member
    have fromStart : graph.start ≠ state := by
      rw [remains.start]
      exact fun same => newName_not_mem (by decide) (same ▸ declared)
    have toAccept : graph.accept ≠ state := by
      rw [remains.accept]
      exact fun same => newName_not_mem (by decide) (same ▸ declared)
    rw [← remains.accepts word, Graph.Accepts, graph.start_remove, graph.accept_remove]
    exact Graph.path_remove_iff fromStart toAccept
  inside := List.Subset.trans (List.erase_subset) remains.inside
  fit := remains.fit.remove state

/-! ## The last edge -/

/-- In the end every edge goes from the new start to the new accepting state. -/
theorem Remains.link_eq (remains : Remains automaton graph []) {link : Link} {regex : Regex}
    (edge : graph.edges.get? link = some regex) : link = ⟨graph.start, graph.accept⟩ := by
  have fits := remains.fit link regex edge
  rw [remains.start, remains.accept]
  rcases link with ⟨source, target⟩
  rw [Link.mk.injEq]
  exact ⟨fits.source.resolve_right List.not_mem_nil, fits.target.resolve_right List.not_mem_nil⟩

theorem Remains.accepts_iff_carries (remains : Remains automaton graph []) :
    graph.Accepts word ↔ graph.Carries graph.start word graph.accept := by
  have different : graph.accept ≠ graph.start := by
    rw [remains.start, remains.accept]
    exact (newStart_ne_newAccept automaton).symm
  constructor
  · intro path
    rw [Graph.Accepts] at path
    generalize arrives : graph.accept = target at path
    generalize departs : graph.start = source at path
    cases path with
    | stay => exact absurd (arrives.trans departs.symm) different
    | follow edge holds rest =>
        cases remains.link_eq edge
        cases rest with
        | stay => exact List.append_nil _ ▸ ⟨_, edge, holds⟩
        | follow another _ _ =>
            exact absurd (congrArg Link.source (remains.link_eq another)) different
  · exact Graph.Carries.path

theorem Remains.regexOf?_eq (remains : Remains automaton graph []) :
    regexOf? graph = (graph.edges.get? ⟨graph.start, graph.accept⟩).map simplify := by
  have only {link : Link} {regex : Regex} (listed : (link, regex) ∈ graph.edges.entries) :
      link = ⟨graph.start, graph.accept⟩ :=
    remains.link_eq (SortedMap.get?_eq_some_iff.mpr listed)
  rw [regexOf?]
  -- Two entries would both be for that link, and entries have different links.
  match found : graph.edges.entries with
  | [] => rw [SortedMap.get?, found, Entries.lookup, Option.map_none]
  | [(link, regex)] =>
      cases only (found ▸ List.mem_cons_self)
      simp [SortedMap.get?, found, Entries.lookup]
  | (first, _) :: (second, _) :: rest =>
      have distinct := graph.edges.nodup_keyList
      have firstLink := only (found ▸ List.mem_cons_self)
      have secondLink := only (found ▸ List.mem_cons_of_mem _ List.mem_cons_self)
      rw [SortedMap.keyList, found, firstLink, secondLink] at distinct
      exact absurd List.mem_cons_self (List.nodup_cons.mp distinct).1

theorem Remains.regexOf?_eq_none_iff (remains : Remains automaton graph []) :
    regexOf? graph = none ↔ ∀ word, ¬ automaton.Accepts word := by
  rw [remains.regexOf?_eq, Option.map_eq_none_iff]
  constructor
  · intro none word accepts
    rcases remains.accepts_iff_carries.mp ((remains.accepts word).mpr accepts) with ⟨_, edge, _⟩
    exact nomatch none.symm.trans edge
  · intro rejects
    refine Option.eq_none_iff_forall_ne_some.mpr fun regex edge => ?_
    rcases (remains.fit _ _ edge).proper.inhabited with ⟨word, holds⟩
    exact rejects word ((remains.accepts word).mp
      (remains.accepts_iff_carries.mpr ⟨regex, edge, holds⟩))

theorem Remains.of_regexOf?_eq_some (remains : Remains automaton graph []) {regex : Regex}
    (found : regexOf? graph = some regex) :
    regex.references = [] ∧ ∀ word, regex.MatchesSymbols word ↔ automaton.Accepts word := by
  rw [remains.regexOf?_eq] at found
  rcases Option.map_eq_some_iff.mp found with ⟨regex, edge, rfl⟩
  refine ⟨references_simplify (remains.fit _ _ edge).proper.closed, fun word => ?_⟩
  rw [← remains.accepts, remains.accepts_iff_carries, MatchesSymbols, matches_simplify_iff]
  constructor
  · exact fun holds => ⟨regex, edge, holds⟩
  · rintro ⟨other, found, holds⟩
    exact Option.some.inj (found.symm.trans edge) ▸ holds

theorem remains_final (valid : automaton.Valid) :
    Remains automaton (final (initial automaton)
      (removals automaton.states.toList.length (initial automaton) automaton.states.toList)) [] :=
  final_removals (fun _ _ _ before member => before.remove member) (remains_initial valid)
    (Nat.le_refl _)

end Regex.Elimination

namespace Automaton

/-- A valid automaton is turned into an expression without references for exactly the
words that it accepts, and into none exactly if it accepts no word. -/
theorem toRegex_preserves_language (automaton : Automaton) (valid : automaton.isValid = true) :
    ∃ observed, automaton.toRegex = .ok observed ∧
      (observed.result = none ↔ ∀ word, automaton.accepts word = false) ∧
      ∀ regex, observed.result = some regex → regex.references = [] ∧
        ∀ word, regex.MatchesSymbols word ↔ automaton.accepts word = true := by
  have remains := Regex.Elimination.remains_final (isValid_iff.mp valid)
  refine ⟨Regex.Elimination.eliminate automaton, ?_, ?_, ?_⟩
  · simp only [toRegex, requireValid, valid, if_true]
    rfl
  · simp only [← Bool.not_eq_true, accepts_iff]
    exact remains.regexOf?_eq_none_iff
  · simp only [accepts_iff]
    exact fun regex => remains.of_regexOf?_eq_some

/-- States that are called like the new ones, a loop, a silent cycle, and two symbols
on edges between the same two states. -/
def takenNames : Automaton :=
  ofRows "sₛ" ["sₐ"] ["x", "yy"]
    [("sₛ", [(.symbol "x", ["sₛ", "sₐ"]), (.symbol "yy", ["sₐ"]), (.epsilon, ["dead"])]),
      ("sₐ", [(.epsilon, ["sₛ"]), (.symbol "yy", ["sₐ"])]),
      ("dead", [(.symbol "x", ["dead"])])]

theorem toRegex_takenNames :
    takenNames.isValid = true ∧
      ∃ observed, takenNames.toRegex = .ok observed ∧
        (observed.result = none ↔ ∀ word, takenNames.accepts word = false) ∧
        ∀ regex, observed.result = some regex → regex.references = [] ∧
          ∀ word, regex.MatchesSymbols word ↔ takenNames.accepts word = true :=
  ⟨by decide, toRegex_preserves_language takenNames (by decide)⟩

end Automaton

end FormalLanguages
