import FormalLanguages.Grammar.NormalForm.EmptyFree
import FormalLanguages.Proofs.Grammar.FixedPoints
import FormalLanguages.Proofs.Grammar.Passes

namespace FormalLanguages.Grammar

/-! # Removing the empty token keeps the language

A non-terminal that stays derives the same words that are not empty, by derivations in
which nothing is empty. -/

variable {grammar : Grammar}

namespace EmptyFree

/-! ## Dropped non-terminals -/

def Dropped (grammar : Grammar) (name : String) : Prop :=
  name ∈ grammar.nullNonTerminals ∧ grammar.start ≠ some name

section Drop

variable {names : List String} {name : String}

theorem not_mem_nonTerminals_foldl_drop :
    ¬ name ∈ (names.foldl dropNonTerminal grammar).nonTerminals ↔
      name ∈ names ∨ ¬ name ∈ grammar.nonTerminals := by
  refine (foldl_iff (fun grammar : Grammar => ¬ name ∈ grammar.nonTerminals)
    (fun dropped => name = dropped) (fun grammar dropped => ?_) names grammar).trans ?_
  · rw [dropNonTerminal, DeclaredSet.mem_erase, Classical.not_and_iff_not_or_not,
      Classical.not_not, or_comm]
  · simp

theorem not_mem_productions_foldl_drop :
    ¬ name ∈ (names.foldl dropNonTerminal grammar).productions ↔
      name ∈ names ∨ ¬ name ∈ grammar.productions := by
  refine (foldl_iff (fun grammar : Grammar => ¬ name ∈ grammar.productions)
    (fun dropped => name = dropped) (fun grammar dropped => ?_) names grammar).trans ?_
  · rw [dropNonTerminal, DeclaredMap.mem_erase, Classical.not_and_iff_not_or_not,
      Classical.not_not, or_comm]
  · simp

theorem not_mem_alternatives_foldl_drop {alternative : Alternative} :
    ¬ alternative ∈ (names.foldl dropNonTerminal grammar).alternatives name ↔
      name ∈ names ∨ ¬ alternative ∈ grammar.alternatives name := by
  refine (foldl_iff (fun grammar : Grammar => ¬ alternative ∈ grammar.alternatives name)
    (fun dropped => name = dropped) (fun grammar dropped => ?_) names grammar).trans ?_
  · rw [Grammar.alternatives, dropNonTerminal, DeclaredMap.get?_erase]
    split
    case isTrue same => simp [same]
    case isFalse different => exact (or_iff_right (Ne.symm different)).symm
  · simp

theorem alternatives_foldl_drop (kept : name ∉ names) :
    (names.foldl dropNonTerminal grammar).alternatives name = grammar.alternatives name := by
  refine List.foldlRecOn
    (motive := fun built : Grammar => built.alternatives name = grammar.alternatives name)
    names _ rfl fun built same dropped member => ?_
  have different : ¬ dropped = name := fun equal => kept (equal ▸ member)
  rw [← same, Grammar.alternatives, dropNonTerminal, DeclaredMap.get?_erase, if_neg different]
  rfl

theorem terminals_foldl_drop :
    (names.foldl dropNonTerminal grammar).terminals = grammar.terminals :=
  List.foldlRecOn (motive := fun built : Grammar => built.terminals = grammar.terminals)
    names _ rfl fun _ same _ _ => same

theorem start_foldl_drop : (names.foldl dropNonTerminal grammar).start = grammar.start :=
  List.foldlRecOn (motive := fun built : Grammar => built.start = grammar.start)
    names _ rfl fun _ same _ _ => same

end Drop

/-! ## The alternatives of the result -/

/-- Null non-terminals keep their alternatives until they are dropped. -/
def rewriting (grammar : Grammar) (head : String) : List Alternative :=
  if head ∈ grammar.nullNonTerminals && grammar.start ≠ some head then grammar.alternatives head
  else alternativesOf grammar grammar.nullableNonTerminals grammar.nullNonTerminals head

theorem rewriting_of_kept {head : String} (kept : ¬ Dropped grammar head) :
    rewriting grammar head =
      alternativesOf grammar grammar.nullableNonTerminals grammar.nullNonTerminals head :=
  if_neg (by simpa [Dropped] using kept)

theorem grammar_visit (progress : Progress) (head : String) :
    (visit grammar grammar.nullableNonTerminals grammar.nullNonTerminals progress head).grammar =
      if rewriting grammar head = grammar.alternatives head then progress.grammar
      else progress.grammar.setAlternatives head (rewriting grammar head) := by
  simp only [visit, rewriting]
  split
  · simp
  · split <;> rfl

theorem rewritten_visits : Rewritten grammar grammar.heads (rewriting grammar)
    (grammar.heads.foldl (visit grammar grammar.nullableNonTerminals grammar.nullNonTerminals)
      (.start grammar)).grammar := rewritten_pass grammar_visit

def droppedNames (grammar : Grammar) : List String :=
  grammar.nullNonTerminals.toList.filter fun name => grammar.start ≠ some name

theorem mem_droppedNames {name : String} :
    name ∈ droppedNames grammar ↔ Dropped grammar name := by
  rw [droppedNames, List.mem_filter, decide_eq_true_eq]
  rfl

theorem grammar_emptyFree : grammar.emptyFree.grammar = (droppedNames grammar).foldl dropNonTerminal
    (grammar.heads.foldl (visit grammar grammar.nullableNonTerminals grammar.nullNonTerminals)
      (.start grammar)).grammar := by
  simp only [emptyFree, removeNull]
  split
  case isTrue none =>
    rw [droppedNames, List.isEmpty_iff.mp none]
    rfl
  case isFalse => rfl

theorem mem_alternativesOf {head : String} {alternative : Alternative} :
    alternative ∈ alternativesOf grammar grammar.nullableNonTerminals grammar.nullNonTerminals
      head ↔
      (∃ original, original ∈ grammar.alternatives head ∧
        (alternative ∈ variants grammar.nullableNonTerminals
          (keptTokens grammar.nullNonTerminals original) ∧ alternative ≠ [])) ∨
      alternative = emptyAlternative ∧ grammar.start = some head ∧
        head ∈ grammar.nullableNonTerminals := by
  have inExpanded : alternative ∈ expanded grammar.nullableNonTerminals grammar.nullNonTerminals
      (grammar.alternatives head) ↔
      ∃ original, original ∈ grammar.alternatives head ∧
        (alternative ∈ variants grammar.nullableNonTerminals
          (keptTokens grammar.nullNonTerminals original) ∧ alternative ≠ []) := by
    refine (foldl_iff (fun known : List Alternative => alternative ∈ known)
      (fun original => alternative ∈ variants grammar.nullableNonTerminals
        (keptTokens grammar.nullNonTerminals original) ∧ alternative ≠ [])
      (fun known original => ?_) _ _).trans ?_
    · simp [expandInto, mem_foldl_addDistinct]
    · simp
  simp only [alternativesOf, Bool.and_eq_true, decide_eq_true_eq]
  split
  case isTrue keepsEmpty => rw [mem_addDistinct, inExpanded, or_comm, and_iff_left keepsEmpty]
  case isFalse dropsEmpty => rw [inExpanded, or_iff_left fun keepsEmpty => dropsEmpty keepsEmpty.2]

theorem nodup_alternativesOf (nullable null : SortedSet String) (head : String) :
    (alternativesOf grammar nullable null head).Nodup := by
  have expanded : (expanded nullable null (grammar.alternatives head)).Nodup :=
    List.foldlRecOn (motive := List.Nodup) _ _ List.nodup_nil fun known nodup original _ =>
      List.foldlRecOn (motive := List.Nodup) _ _ nodup fun known nodup variant _ =>
        nodup_addDistinct nodup variant
  rw [alternativesOf]
  split
  · exact nodup_addDistinct expanded _
  · exact expanded

/-- Which alternatives a non-terminal has once the empty token is removed. -/
structure Remains (grammar : Grammar) (head : String) (alternative : Alternative) : Prop where
  kept : ¬ Dropped grammar head
  origin : (∃ original, original ∈ grammar.alternatives head ∧
      (alternative ∈ variants grammar.nullableNonTerminals
        (keptTokens grammar.nullNonTerminals original) ∧ alternative ≠ [])) ∨
    alternative = emptyAlternative ∧ grammar.start = some head ∧
      head ∈ grammar.nullableNonTerminals

theorem mem_alternatives_result (wellFormed : grammar.WellFormed) {head : String}
    {alternative : Alternative} :
    alternative ∈ grammar.emptyFree.grammar.alternatives head ↔
      Remains grammar head alternative := by
  rw [grammar_emptyFree, ← Classical.not_not (a := alternative ∈ _),
    not_mem_alternatives_foldl_drop, mem_droppedNames, not_or, Classical.not_not,
    rewritten_visits.alternatives]
  constructor
  · intro found
    rcases found with ⟨kept, member⟩
    refine ⟨kept, ?_⟩
    split at member
    · rw [rewriting_of_kept kept] at member
      exact mem_alternativesOf.mp member
    case isFalse foreign =>
      rw [alternatives_eq_nil foreign] at member
      cases member
  · intro found
    rcases found with ⟨kept, origin⟩
    have declared : head ∈ grammar.heads := by
      rcases origin with ⟨original, member, _⟩ | ⟨_, _, nullable⟩
      · exact mem_productions_of_mem member
      · rcases wellFormed.mem_nullable_iff.mp nullable with ⟨original, member, _⟩
        exact mem_productions_of_mem member
    rw [if_pos declared, rewriting_of_kept kept]
    exact ⟨kept, mem_alternativesOf.mpr origin⟩

theorem nodup_alternatives_start {start : String} (isStart : grammar.start = some start) :
    (grammar.emptyFree.grammar.alternatives start).Nodup := by
  have kept : ¬ Dropped grammar start := fun dropped => dropped.2 isStart
  rw [grammar_emptyFree, alternatives_foldl_drop (mem_droppedNames.not.mpr kept),
    rewritten_visits.alternatives]
  split
  · rw [rewriting_of_kept kept]
    exact nodup_alternativesOf _ _ start
  case isFalse foreign =>
    rw [alternatives_eq_nil foreign]
    exact List.nodup_nil

theorem start_result : grammar.emptyFree.grammar.start = grammar.start := by
  rw [grammar_emptyFree, start_foldl_drop, rewritten_visits.start]

theorem terminals_result : grammar.emptyFree.grammar.terminals = grammar.terminals := by
  rw [grammar_emptyFree, terminals_foldl_drop, rewritten_visits.terminals]

theorem mem_nonTerminals_result {name : String} :
    name ∈ grammar.emptyFree.grammar.nonTerminals ↔
      name ∈ grammar.nonTerminals ∧ ¬ Dropped grammar name := by
  rw [grammar_emptyFree, ← Classical.not_not (a := name ∈ _), not_mem_nonTerminals_foldl_drop,
    mem_droppedNames, not_or, Classical.not_not, rewritten_visits.nonTerminals, and_comm]

theorem mem_productions_result {name : String} :
    name ∈ grammar.emptyFree.grammar.productions ↔
      name ∈ grammar.productions ∧ ¬ Dropped grammar name := by
  rw [grammar_emptyFree, ← Classical.not_not (a := name ∈ _), not_mem_productions_foldl_drop,
    mem_droppedNames, not_or, Classical.not_not, rewritten_visits.productions, and_comm]

/-! ## Variants -/

theorem variants_sublist {nullable : SortedSet String} {tokens variant : List Token}
    (member : variant ∈ variants nullable tokens) : variant.Sublist tokens := by
  induction tokens generalizing variant with
  | nil => exact List.mem_singleton.mp member ▸ List.Sublist.refl []
  | cons token rest induction =>
      have keeps : ∀ shorter, shorter ∈ variants nullable rest →
          (token :: shorter).Sublist (token :: rest) :=
        fun _ inside => (induction inside).cons_cons _
      simp only [variants] at member
      split at member
      · rcases List.mem_append.mp member with kept | others
        · rcases List.mem_map.mp kept with ⟨shorter, inside, rfl⟩
          exact keeps shorter inside
        · exact (induction others).cons _
      · rcases List.mem_map.mp member with ⟨shorter, inside, rfl⟩
        exact keeps shorter inside

/-- Dropping optional tokens takes away nothing but the empty sequence. -/
theorem yields_of_variant {nullable : SortedSet String}
    (derives : ∀ name, name ∈ nullable → grammar.Derives name []) {tokens variant : List Token}
    (member : variant ∈ variants nullable tokens) {word : List String}
    (yields : grammar.Yields variant word) : grammar.Yields tokens word := by
  induction tokens generalizing variant word with
  | nil =>
      rw [List.mem_singleton.mp member] at yields
      exact yields
  | cons token rest induction =>
      have keeps : ∀ shorter, shorter ∈ variants nullable rest →
          grammar.Yields (token :: shorter) word → grammar.Yields (token :: rest) word := by
        intro shorter inside yields
        have parts : grammar.Yields ([token] ++ shorter) word := yields
        rcases parts.split with ⟨left, right, rfl, before, after⟩
        exact before.append (induction inside after)
      simp only [variants] at member
      split at member
      case isTrue optional =>
        rcases List.mem_append.mp member with kept | others
        · rcases List.mem_map.mp kept with ⟨shorter, inside, rfl⟩
          exact keeps shorter inside yields
        · cases token with
          | nonTerminal name =>
              have silent := yields_singleton_iff.mpr
                (derives name (by simpa [isOptional] using optional))
              exact silent.append (induction others yields)
          | terminal | empty => cases optional
      case isFalse =>
        rcases List.mem_map.mp member with ⟨shorter, inside, rfl⟩
        exact keeps shorter inside yields

/-- Null tokens stand for the empty sequence. -/
theorem yields_of_keptTokens {tokens : List Token} {word : List String}
    (null : ∀ name, name ∈ grammar.nullNonTerminals → grammar.Derives name [])
    (yields : grammar.Yields (keptTokens grammar.nullNonTerminals tokens) word) :
    grammar.Yields tokens word := by
  induction tokens generalizing word with
  | nil => exact yields
  | cons token rest induction =>
      rw [keptTokens, List.filter_cons] at yields
      split at yields
      · have parts : grammar.Yields ([token] ++ keptTokens grammar.nullNonTerminals rest) word :=
          yields
        rcases parts.split with ⟨left, right, rfl, before, after⟩
        exact before.append (induction after)
      case isFalse dropped =>
        have rests := induction yields
        cases token with
        | empty => exact .empty rests
        | terminal name => simp [isNull] at dropped
        | nonTerminal name =>
            have silent := yields_singleton_iff.mpr (null name (by simpa [isNull] using dropped))
            exact silent.append rests

/-- Some variant keeps exactly the non-terminals that a derivation does not empty. -/
theorem exists_variant (wellFormed : grammar.WellFormed) {result : Grammar} {tokens : List Token}
    {word : List String}
    (spells : Spells (fun name word => grammar.Derives name word ∧
      (word ≠ [] → result.Forms name word)) tokens word) :
    ∃ variant, variant ∈ variants grammar.nullableNonTerminals
      (keptTokens grammar.nullNonTerminals tokens) ∧ result.Builds variant word := by
  induction tokens generalizing word with
  | nil => exact ⟨[], List.mem_singleton.mpr rfl, spells ▸ .done⟩
  | cons token rest induction =>
      cases token with
      | empty => exact induction spells
      | terminal name =>
          rcases spells with ⟨tail, rfl, spells⟩
          rcases induction spells with ⟨variant, member, builds⟩
          exact ⟨_, List.mem_map_of_mem member, .terminal name builds⟩
      | nonTerminal name =>
          rcases spells with ⟨first, tail, rfl, ⟨derives, forms⟩, spells⟩
          rcases induction spells with ⟨variant, member, builds⟩
          by_cases null : name ∈ grammar.nullNonTerminals
          · have kept : keptTokens grammar.nullNonTerminals (.nonTerminal name :: rest) =
                keptTokens grammar.nullNonTerminals rest := by simp [keptTokens, isNull, null]
            rw [kept, eq_nil_of_mem_null null derives]
            exact ⟨variant, member, builds⟩
          · have kept : keptTokens grammar.nullNonTerminals (.nonTerminal name :: rest) =
                .nonTerminal name :: keptTokens grammar.nullNonTerminals rest := by
              simp [keptTokens, isNull, null]
            rw [kept, variants]
            by_cases empty : first = []
            · subst empty
              have optional := wellFormed.mem_nullable_iff.mpr derives
              refine ⟨variant, ?_, builds⟩
              rw [if_pos (by simpa [isOptional] using optional)]
              exact List.mem_append_right _ member
            · refine ⟨.nonTerminal name :: variant, ?_,
                builds_nonTerminal_cons_iff.mpr ⟨first, tail, rfl, forms empty, builds⟩⟩
              have inside := List.mem_map_of_mem (f := (Token.nonTerminal name :: ·)) member
              split
              · exact List.mem_append_left _ inside
              · exact inside

end EmptyFree

open EmptyFree

theorem WellFormed.derives_of_emptyFree (wellFormed : grammar.WellFormed) {name : String}
    {word : List String} (derives : grammar.emptyFree.grammar.Derives name word) :
    grammar.Derives name word := by
  apply derives.transfer
  intro head alternative word member yields
  rcases ((mem_alternatives_result wellFormed).mp member).origin with
    ⟨original, belongs, variant, _⟩ | ⟨rfl, _, nullable⟩
  · refine ⟨original, belongs, yields_of_keptTokens ?_ (yields_of_variant ?_ variant yields)⟩
    · exact fun _ null => wellFormed.mem_nullable_iff.mp (mem_nullable_of_mem_null null)
    · exact fun _ nullable => wellFormed.mem_nullable_iff.mp nullable
  · cases yields with
    | empty tail =>
        cases tail
        exact wellFormed.mem_nullable_iff.mp nullable

theorem WellFormed.forms_emptyFree (wellFormed : grammar.WellFormed) {name : String}
    {word : List String} (derives : grammar.Derives name word) (nonempty : word ≠ []) :
    grammar.emptyFree.grammar.Forms name word := by
  refine derives.means_of_derived
    (fun name word => word ≠ [] → grammar.emptyFree.grammar.Forms name word) ?_ nonempty
  intro name alternative word member own spells nonempty
  refine ⟨nonempty, ?_⟩
  rcases exists_variant wellFormed spells with ⟨variant, inside, builds⟩
  have filled : variant ≠ [] := fun none => nonempty (builds_nil_iff.mp (none ▸ builds))
  have kept : ¬ Dropped grammar name := fun dropped =>
    nonempty (eq_nil_of_mem_null dropped.1 own)
  exact ⟨variant, (mem_alternatives_result wellFormed).mpr
    ⟨kept, .inl ⟨alternative, member, inside, filled⟩⟩, builds⟩

/-- A non-terminal that is kept derives the same words as before, but for the empty one. -/
theorem WellFormed.derives_emptyFree_iff (wellFormed : grammar.WellFormed) {name : String}
    {word : List String} (nonempty : word ≠ []) :
    grammar.emptyFree.grammar.Derives name word ↔ grammar.Derives name word :=
  ⟨wellFormed.derives_of_emptyFree, fun derives =>
    (wellFormed.forms_emptyFree derives nonempty).derives⟩

/-- The start symbol keeps the empty sequence. -/
theorem WellFormed.derives_nil_emptyFree (wellFormed : grammar.WellFormed) {start : String}
    (isStart : grammar.start = some start) (derives : grammar.Derives start []) :
    emptyAlternative ∈ grammar.emptyFree.grammar.alternatives start :=
  (mem_alternatives_result wellFormed).mpr ⟨fun dropped => dropped.2 isStart,
    .inr ⟨rfl, isStart, wellFormed.mem_nullable_iff.mpr derives⟩⟩

theorem WellFormed.mem_emptyAlternative_iff (wellFormed : grammar.WellFormed) {start : String}
    (isStart : grammar.start = some start) :
    emptyAlternative ∈ grammar.emptyFree.grammar.alternatives start ↔ grammar.Derives start [] :=
  ⟨fun member => wellFormed.derives_of_emptyFree ⟨_, member, .empty .done⟩,
    wellFormed.derives_nil_emptyFree isStart⟩

theorem WellFormed.derives_start_emptyFree_iff (wellFormed : grammar.WellFormed) {start : String}
    (isStart : grammar.start = some start) {word : List String} :
    grammar.emptyFree.grammar.Derives start word ↔ grammar.Derives start word := by
  by_cases empty : word = []
  · subst empty
    exact ⟨wellFormed.derives_of_emptyFree, fun derives =>
      ⟨_, wellFormed.derives_nil_emptyFree isStart derives, .empty .done⟩⟩
  · exact wellFormed.derives_emptyFree_iff empty

/-! ## The shape of the result -/

theorem mem_keptTokens {null : SortedSet String} {tokens : List Token} {token : Token} :
    token ∈ keptTokens null tokens ↔ token ∈ tokens ∧ isNull null token = false := by
  rw [keptTokens, List.mem_filter, Bool.not_eq_true']

/-- Apart from `ε` on the start symbol, alternatives are made of tokens that are not null. -/
theorem WellFormed.alternative_emptyFree (wellFormed : grammar.WellFormed) {head : String}
    {alternative : Alternative}
    (member : alternative ∈ grammar.emptyFree.grammar.alternatives head) :
    alternative = emptyAlternative ∧ grammar.start = some head ∨
      alternative ≠ [] ∧
        (∀ token, token ∈ alternative → isNull grammar.nullNonTerminals token = false) ∧
        ∃ original, original ∈ grammar.alternatives head ∧ alternative.Sublist original := by
  rcases ((mem_alternatives_result wellFormed).mp member).origin with
    ⟨original, belongs, variant, filled⟩ | ⟨same, isStart, _⟩
  · have kept := variants_sublist variant
    exact .inr ⟨filled, fun token inside => (mem_keptTokens.mp (kept.subset inside)).2,
      original, belongs, kept.trans List.filter_sublist⟩
  · exact .inl ⟨same, isStart⟩

/-- Null non-terminals may be mentioned until they are dropped. -/
theorem WellFormed.declared_rewriting (wellFormed : grammar.WellFormed) {head : String}
    {alternative : Alternative} (member : alternative ∈ rewriting grammar head) {token : Token}
    (inside : token ∈ alternative) : grammar.Declares token := by
  rw [rewriting] at member
  split at member
  · exact wellFormed.token_declared member inside
  · rcases mem_alternativesOf.mp member with ⟨original, belongs, variant, _⟩ | ⟨rfl, _⟩
    · have part := (variants_sublist variant).trans List.filter_sublist
      exact wellFormed.token_declared belongs (part.subset inside)
    · rw [List.mem_singleton.mp inside]
      trivial

theorem WellFormed.emptyFree (wellFormed : grammar.WellFormed) :
    grammar.emptyFree.grammar.WellFormed := by
  refine .of_alternatives (fun head declared => ?_) (fun head alternative member => ?_) ?_
  · rcases mem_productions_result.mp declared with ⟨declared, kept⟩
    exact mem_nonTerminals_result.mpr ⟨wellFormed.heads head declared, kept⟩
  · rcases wellFormed.alternative_emptyFree member with
      ⟨rfl, _⟩ | ⟨_, solid, original, belongs, part⟩
    · intro token inside
      rw [List.mem_singleton.mp inside]
      trivial
    · intro token inside
      have declared := wellFormed.token_declared belongs (part.subset inside)
      have notNull := solid token inside
      cases token with
      | empty => trivial
      | terminal name =>
          change name ∈ grammar.emptyFree.grammar.terminals
          rw [terminals_result]
          exact declared
      | nonTerminal name =>
          refine mem_nonTerminals_result.mpr ⟨declared, fun dropped => ?_⟩
          exact absurd dropped.1 (by simpa [isNull] using notNull)
  · intro start isStart
    rw [start_result] at isStart
    exact mem_nonTerminals_result.mpr
      ⟨wellFormed.start start isStart, fun dropped => dropped.2 isStart⟩

end FormalLanguages.Grammar
