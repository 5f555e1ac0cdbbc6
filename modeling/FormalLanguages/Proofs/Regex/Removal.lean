import FormalLanguages.Proofs.Collection.Members
import FormalLanguages.Proofs.Regex.Simplification
import FormalLanguages.Regex.GraphPath

namespace FormalLanguages.Regex.Graph

/-! # Taking a state out of a graph

Between the other states there are paths for the same words as before: a path that
comes to the state goes round its loop and leaves it again, and there is an edge past
the state for all of that. -/

variable {graph : Graph} {source target state : String} {piece word : List String}

/-- An edge can consume this piece of a word. -/
def Carries (graph : Graph) (source : String) (piece : List String) (target : String) : Prop :=
  ∃ regex, graph.edges.get? ⟨source, target⟩ = some regex ∧ regex.MatchesSymbols piece

theorem Carries.path (carries : graph.Carries source piece target) :
    graph.Path source piece target := by
  rcases carries with ⟨regex, edge, holds⟩
  exact List.append_nil piece ▸ .follow edge holds (.stay target)

theorem Carries.path_append {middle : String} (carries : graph.Carries source piece middle)
    (rest : graph.Path middle word target) : graph.Path source (piece ++ word) target :=
  carries.path.append rest

/-! ## Adding edges -/

theorem edges_add (graph : Graph) (source target : String) (regex : Regex) :
    (graph.add source target regex).edges = graph.edges.insert ⟨source, target⟩
      (match graph.edges.get? ⟨source, target⟩ with
        | none => regex
        | some before => (alternative before regex).simplify) := rfl

theorem carries_add {regex : Regex} {first last : String} :
    (graph.add first last regex).Carries source piece target ↔
      (source = first ∧ target = last ∧ regex.MatchesSymbols piece) ∨
        graph.Carries source piece target := by
  rw [Carries, edges_add, SortedMap.get?_insert]
  by_cases same : Link.mk first last = ⟨source, target⟩
  · cases same
    cases found : graph.edges.get? ⟨source, target⟩ with
    | none => simp [Carries, found]
    | some before =>
        have merged : (alternative before regex).simplify.MatchesSymbols piece ↔
            before.MatchesSymbols piece ∨ regex.MatchesSymbols piece :=
          matches_simplify_iff.trans matches_alternative_iff
        simp [Carries, found, merged, or_comm]
  · have different : ¬ (source = first ∧ target = last ∧ regex.MatchesSymbols piece) := by
      rintro ⟨rfl, rfl, _⟩
      exact same rfl
    rw [if_neg same, or_iff_right different]
    exact Iff.rfl

/-- A property of the edges that merging keeps is kept by adding an edge that has it. -/
theorem forall_edges_add {holds : Link → Regex → Prop} {first last : String} {regex : Regex}
    (merges : ∀ link before after, holds link before → holds link after →
      holds link (alternative before after).simplify)
    (all : ∀ link edge, graph.edges.get? link = some edge → holds link edge)
    (new : holds ⟨first, last⟩ regex) :
    ∀ link edge, (graph.add first last regex).edges.get? link = some edge → holds link edge := by
  intro link edge found
  rw [edges_add, SortedMap.get?_insert] at found
  split at found
  case isFalse => exact all link edge found
  case isTrue same =>
    cases same
    cases Option.some.inj found
    split
    case h_1 => exact new
    case h_2 before known => exact merges _ before regex (all _ _ known) new

/-! ## The edges that are left -/

def without (graph : Graph) (state : String) : Graph :=
  { graph with edges := graph.edges.filter fun link _ => !link.touches state }

def detours (graph : Graph) (state : String) : List (String × String × Regex) :=
  (graph.incoming state).flatMap fun (source, before) =>
    (graph.outgoing state).map fun (target, after) =>
      (source, target, through before (graph.loopOf state) after)

theorem remove_eq (graph : Graph) (state : String) :
    graph.remove state = (graph.detours state).foldl
      (fun graph detour => graph.add detour.1 detour.2.1 detour.2.2) (graph.without state) := rfl

theorem start_remove (graph : Graph) (state : String) :
    (graph.remove state).start = graph.start := by
  refine foldl_keeps Graph.start ?_ _ _
  exact fun _ _ => rfl

theorem accept_remove (graph : Graph) (state : String) :
    (graph.remove state).accept = graph.accept := by
  refine foldl_keeps Graph.accept ?_ _ _
  exact fun _ _ => rfl

theorem get?_without {link : Link} {regex : Regex} :
    (graph.without state).edges.get? link = some regex ↔
      graph.edges.get? link = some regex ∧ link.source ≠ state ∧ link.target ≠ state := by
  refine SortedMap.get?_filter_eq_some_iff.trans (and_congr_right fun _ => ?_)
  simp [Link.touches]

theorem mem_incoming {regex : Regex} :
    (source, regex) ∈ graph.incoming state ↔
      graph.edges.get? ⟨source, state⟩ = some regex ∧ source ≠ state := by
  simp only [incoming, List.mem_map, List.mem_filter, Bool.and_eq_true, decide_eq_true_eq,
    SortedMap.get?_eq_some_iff]
  constructor
  · rintro ⟨⟨⟨_, _⟩, _⟩, ⟨member, rfl, different⟩, equal⟩
    cases equal
    exact ⟨member, different⟩
  · rintro ⟨member, different⟩
    exact ⟨(⟨source, state⟩, regex), ⟨member, rfl, different⟩, rfl⟩

theorem mem_outgoing {regex : Regex} :
    (target, regex) ∈ graph.outgoing state ↔
      graph.edges.get? ⟨state, target⟩ = some regex ∧ target ≠ state := by
  simp only [outgoing, List.mem_map, List.mem_filter, Bool.and_eq_true, decide_eq_true_eq,
    SortedMap.get?_eq_some_iff]
  constructor
  · rintro ⟨⟨⟨_, _⟩, _⟩, ⟨member, rfl, different⟩, equal⟩
    cases equal
    exact ⟨member, different⟩
  · rintro ⟨member, different⟩
    exact ⟨(⟨state, target⟩, regex), ⟨member, rfl, different⟩, rfl⟩

theorem mem_detours {regex : Regex} :
    (source, target, regex) ∈ graph.detours state ↔
      ∃ before after, graph.edges.get? ⟨source, state⟩ = some before ∧ source ≠ state ∧
        graph.edges.get? ⟨state, target⟩ = some after ∧ target ≠ state ∧
        regex = through before (graph.loopOf state) after := by
  simp only [detours, List.mem_flatMap, List.mem_map]
  constructor
  · rintro ⟨⟨_, before⟩, into, ⟨_, after⟩, out, equal⟩
    cases equal
    rcases mem_incoming.mp into with ⟨edge, different⟩
    rcases mem_outgoing.mp out with ⟨next, unequal⟩
    exact ⟨before, after, edge, different, next, unequal, rfl⟩
  · rintro ⟨before, after, edge, different, next, unequal, rfl⟩
    exact ⟨(source, before), mem_incoming.mpr ⟨edge, different⟩, (target, after),
      mem_outgoing.mpr ⟨next, unequal⟩, rfl⟩

theorem matches_through_iff {before loop after : Regex} :
    (through before loop after).MatchesSymbols piece ↔
      ∃ first round last, before.MatchesSymbols first ∧ loop.MatchesSymbols round ∧
        after.MatchesSymbols last ∧ piece = first ++ (round ++ last) := by
  rw [through, MatchesSymbols, matches_simplify_iff]
  simp only [catAll, matches_sequence_iff]
  constructor
  · rintro ⟨first, rest, before, ⟨round, last, loop, after, rfl⟩, rfl⟩
    exact ⟨first, round, last, before, loop, after, rfl⟩
  · rintro ⟨first, round, last, before, loop, after, rfl⟩
    exact ⟨first, _, before, ⟨round, last, loop, after, rfl⟩, rfl⟩

/-- Past a removed state an edge consumes what comes to it, rounds of its loop and what
leaves it. -/
def Passes (graph : Graph) (state source : String) (piece : List String) (target : String) :
    Prop :=
  ∃ first round last, graph.Carries source first state ∧
    (graph.loopOf state).MatchesSymbols round ∧ graph.Carries state last target ∧
    piece = first ++ (round ++ last)

theorem carries_remove :
    (graph.remove state).Carries source piece target ↔
      source ≠ state ∧ target ≠ state ∧
        (graph.Carries source piece target ∨ graph.Passes state source piece target) := by
  rw [remove_eq]
  refine (foldl_iff (fun graph : Graph => graph.Carries source piece target)
    (fun detour : String × String × Regex => source = detour.1 ∧ target = detour.2.1 ∧
      detour.2.2.MatchesSymbols piece) (fun _ _ => carries_add) _ _).trans ?_
  constructor
  · rintro (⟨⟨_, _, regex⟩, member, rfl, rfl, holds⟩ | ⟨regex, edge, holds⟩)
    · rcases mem_detours.mp member with ⟨before, after, into, different, out, unequal, rfl⟩
      rcases matches_through_iff.mp holds with ⟨first, round, last, inFirst, inLoop, inLast, rfl⟩
      exact ⟨different, unequal,
        .inr ⟨first, round, last, ⟨before, into, inFirst⟩, inLoop, ⟨after, out, inLast⟩, rfl⟩⟩
    · rcases get?_without.mp edge with ⟨edge, different, unequal⟩
      exact ⟨different, unequal, .inl ⟨regex, edge, holds⟩⟩
  · rintro ⟨different, unequal, ⟨regex, edge, holds⟩ | passes⟩
    · exact .inr ⟨regex, get?_without.mpr ⟨edge, different, unequal⟩, holds⟩
    · rcases passes with ⟨first, round, last, ⟨before, into, inFirst⟩, inLoop,
        ⟨after, out, inLast⟩, rfl⟩
      refine .inl ⟨(source, target, through before (graph.loopOf state) after), ?_, rfl, rfl, ?_⟩
      · exact mem_detours.mpr ⟨before, after, into, different, out, unequal, rfl⟩
      · exact matches_through_iff.mpr ⟨first, round, last, inFirst, inLoop, inLast, rfl⟩

/-! ## Loops -/

theorem loopOf_nil : (graph.loopOf state).MatchesSymbols [] := by
  rw [loopOf]
  cases graph.edges.get? ⟨state, state⟩ with
  | none => exact .nil
  | some regex => exact .done

theorem loopOf_append (carries : graph.Carries state piece state)
    (rest : (graph.loopOf state).MatchesSymbols word) :
    (graph.loopOf state).MatchesSymbols (piece ++ word) := by
  rcases carries with ⟨regex, edge, holds⟩
  rw [loopOf, edge] at rest ⊢
  exact .again holds rest

theorem path_of_loopOf (holds : (graph.loopOf state).MatchesSymbols word) :
    graph.Path state word state := by
  rw [loopOf] at holds
  cases edge : graph.edges.get? ⟨state, state⟩ with
  | none =>
      rw [edge] at holds
      exact matches_nil_iff.mp holds ▸ .stay state
  | some regex =>
      rw [edge] at holds
      rcases Matches.pieces holds rfl with ⟨pieces, rfl, all⟩
      clear holds
      induction pieces with
      | nil => exact .stay state
      | cons first rest induction =>
          have once : graph.Carries state first state := ⟨regex, edge, all first List.mem_cons_self⟩
          exact once.path_append
            (induction fun piece member => all piece (List.mem_cons_of_mem _ member))

/-! ## Paths -/

theorem Path.of_remove (path : (graph.remove state).Path source word target) :
    graph.Path source word target := by
  induction path with
  | stay => exact .stay _
  | follow edge holds _ induction =>
      rcases carries_remove.mp ⟨_, edge, holds⟩ with ⟨_, _, carries | passes⟩
      · exact carries.path_append induction
      · rcases passes with ⟨first, round, last, before, loop, after, rfl⟩
        rw [List.append_assoc, List.append_assoc]
        exact before.path_append ((path_of_loopOf loop).append (after.path_append induction))

/-- A path from the removed state goes some rounds, leaves it, and goes on without it. -/
def Resumes (graph : Graph) (state : String) (word : List String) (target : String) : Prop :=
  ∃ round piece rest middle, (graph.loopOf state).MatchesSymbols round ∧
    graph.Carries state piece middle ∧ middle ≠ state ∧
    (graph.remove state).Path middle rest target ∧ word = round ++ (piece ++ rest)

theorem Path.resumes_of_remove (path : graph.Path source word target)
    (kept : target ≠ state) :
    (source ≠ state → (graph.remove state).Path source word target) ∧
      (source = state → graph.Resumes state word target) := by
  -- Both at once: a path from another state may come to the removed one, and leave it again.
  induction path with
  | stay => exact ⟨fun _ => .stay _, fun same => absurd same kept⟩
  | @follow source middle target regex piece word edge holds _ induction =>
      have carries : graph.Carries source piece middle := ⟨regex, edge, holds⟩
      rcases induction kept with ⟨past, through⟩
      constructor
      · intro different
        by_cases arrives : middle = state
        · subst arrives
          rcases through rfl with ⟨round, last, rest, next, loop, after, leaves, path, rfl⟩
          have detour : (graph.remove middle).Carries source (piece ++ (round ++ last)) next :=
            carries_remove.mpr ⟨different, leaves,
              .inr ⟨piece, round, last, carries, loop, after, rfl⟩⟩
          simpa using detour.path_append path
        · have direct : (graph.remove state).Carries source piece middle :=
            carries_remove.mpr ⟨different, arrives, .inl carries⟩
          exact direct.path_append (past arrives)
      · rintro rfl
        by_cases arrives : middle = source
        · subst arrives
          rcases through rfl with ⟨round, last, rest, next, loop, after, leaves, path, rfl⟩
          refine ⟨piece ++ round, last, rest, next, loopOf_append carries loop, after, leaves,
            path, ?_⟩
          rw [List.append_assoc]
        · exact ⟨[], piece, word, middle, loopOf_nil, carries, arrives, past arrives, rfl⟩

theorem path_remove_iff (keptSource : source ≠ state) (keptTarget : target ≠ state) :
    (graph.remove state).Path source word target ↔ graph.Path source word target :=
  ⟨Path.of_remove, fun path => (path.resumes_of_remove keptTarget).1 keptSource⟩

end FormalLanguages.Regex.Graph
