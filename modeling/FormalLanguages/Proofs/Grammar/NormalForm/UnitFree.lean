import FormalLanguages.Grammar.NormalForm.UnitFree
import FormalLanguages.Proofs.Grammar.Passes

namespace FormalLanguages.Grammar

/-! # Inlining units keeps the language

Every non-terminal takes over the alternatives at the ends of its chains of units. Where
`ε` is not taken over, the derivations in which nothing is empty are kept. -/

variable {grammar : Grammar} {borrowsEmpty : Bool}

namespace UnitFree

theorem unitTarget?_eq_some_iff {alternative : Alternative} {name : String} :
    unitTarget? alternative = some name ↔ alternative = [.nonTerminal name] := by
  rw [unitTarget?.eq_def]
  split <;> simp_all

/-! ## Chains of units -/

def targets (grammar : Grammar) (name : String) : List String :=
  (grammar.alternatives name).filterMap unitTarget?

theorem mem_targets {name other : String} :
    other ∈ targets grammar name ↔ [.nonTerminal other] ∈ grammar.alternatives name := by
  simp only [targets, List.mem_filterMap, unitTarget?_eq_some_iff, exists_eq_right]

def Leads (grammar : Grammar) (head : String) : String → Prop :=
  Reachable (targets grammar) [head]

theorem Leads.self (grammar : Grammar) (head : String) : Leads grammar head head :=
  .seed (List.mem_singleton.mpr rfl)

theorem Leads.through {head next last : String}
    (unit : [.nonTerminal next] ∈ grammar.alternatives head) (leads : Leads grammar next last) :
    Leads grammar head last := by
  induction leads with
  | seed member =>
      rw [List.mem_singleton.mp member]
      exact .follow (Leads.self grammar head) (mem_targets.mpr unit)
  | follow _ member induction => exact .follow induction member

theorem Leads.derives {head last : String} {word : List String} (leads : Leads grammar head last)
    (derives : grammar.Derives last word) : grammar.Derives head word := by
  induction leads with
  | seed member => exact List.mem_singleton.mp member ▸ derives
  | follow _ member induction =>
      exact induction ⟨_, mem_targets.mp member, yields_singleton_iff.mpr derives⟩

theorem Leads.head_mem {head last : String} (leads : Leads grammar head last)
    (member : last ∈ grammar.productions) : head ∈ grammar.productions := by
  induction leads with
  | seed same => exact List.mem_singleton.mp same ▸ member
  | follow _ unit induction => exact induction (mem_productions_of_mem (mem_targets.mp unit))

/-! Each round of the search that finds a new name uses up an alternative. -/

def allTargets (grammar : Grammar) : List String :=
  (grammar.productions.entries.flatMap Prod.snd).filterMap unitTarget?

theorem length_allTargets : (allTargets grammar).length ≤ alternativeCount grammar := by
  have counted := foldl_length Prod.snd grammar.productions.entries 0
  rw [Nat.zero_add] at counted
  exact Nat.le_trans (List.length_filterMap_le _ _) (Nat.le_of_eq counted.symm)

theorem mem_allTargets {name other : String} (member : other ∈ targets grammar name) :
    other ∈ allTargets grammar := by
  rcases mem_alternatives_iff.mp (mem_targets.mp member) with ⟨alternatives, found, inside⟩
  refine List.mem_filterMap.mpr ⟨_, List.mem_flatMap.mpr
    ⟨(name, alternatives), DeclaredMap.get?_eq_some_iff.mp found, inside⟩, rfl⟩

theorem mem_reached_iff {head name : String} :
    name ∈ reached grammar head ↔ Leads grammar head name := by
  have covers : ∀ name, Leads grammar head name → name ∈ head :: allTargets grammar := by
    intro name leads
    cases leads with
    | seed member => exact List.mem_singleton.mp member ▸ List.mem_cons_self
    | follow _ member => exact List.mem_cons_of_mem _ (mem_allTargets member)
  apply Reachable.mem_list_iff covers
  rw [List.length_cons, Nat.add_comm]
  exact Nat.add_le_add_left length_allTargets 1

/-! ## The alternatives of the result -/

theorem mem_alternativesOf {head : String} {alternative : Alternative} :
    alternative ∈ alternativesOf grammar borrowsEmpty head ↔
      ∃ source, Leads grammar head source ∧ alternative ∈ grammar.alternatives source ∧
        isBorrowed borrowsEmpty head source alternative = true := by
  refine (foldl_iff (fun known : List Alternative => alternative ∈ known)
    (fun source => alternative ∈ grammar.alternatives source ∧
      isBorrowed borrowsEmpty head source alternative = true) (fun known source => ?_) _ _).trans ?_
  · rw [mem_foldl_addDistinct, List.mem_filter]
  · simp only [List.not_mem_nil, or_false, List.mem_cons, inlined, List.mem_filter,
      Bool.and_eq_true, decide_eq_true_eq, mem_reached_iff]
    constructor
    · intro found
      rcases found with ⟨source, rfl | ⟨_, _, leads⟩, rest⟩
      · exact ⟨source, .self grammar source, rest⟩
      · exact ⟨source, leads, rest⟩
    · intro found
      rcases found with ⟨source, leads, member, borrowed⟩
      by_cases same : source = head
      · exact ⟨source, .inl same, member, borrowed⟩
      · exact ⟨source, .inr ⟨mem_productions_of_mem member, same, leads⟩, member, borrowed⟩

theorem grammar_visit (progress : Progress) (head : String) :
    (visit grammar borrowsEmpty progress head).grammar =
      if alternativesOf grammar borrowsEmpty head = grammar.alternatives head then progress.grammar
      else progress.grammar.setAlternatives head (alternativesOf grammar borrowsEmpty head) := by
  simp only [visit]
  split <;> rfl

theorem rewritten_inlineUnits : Rewritten grammar grammar.heads
    (alternativesOf grammar borrowsEmpty) (grammar.inlineUnits borrowsEmpty).grammar :=
  rewritten_pass grammar_visit

theorem mem_alternatives_result {head : String} {alternative : Alternative} :
    alternative ∈ (grammar.inlineUnits borrowsEmpty).grammar.alternatives head ↔
      ∃ source, Leads grammar head source ∧ alternative ∈ grammar.alternatives source ∧
        isBorrowed borrowsEmpty head source alternative = true := by
  rw [rewritten_inlineUnits.alternatives]
  split
  case isTrue => exact mem_alternativesOf
  case isFalse foreign =>
    rw [alternatives_eq_nil foreign]
    apply iff_of_false List.not_mem_nil
    intro found
    rcases found with ⟨source, leads, member, _⟩
    exact foreign (leads.head_mem (mem_productions_of_mem member))

theorem isBorrowed_iff {head source : String} {alternative : Alternative} :
    isBorrowed borrowsEmpty head source alternative = true ↔
      (∀ name, alternative ≠ [.nonTerminal name]) ∧
        (borrowsEmpty = true ∨ source = head ∨ alternative ≠ EmptyFree.emptyAlternative) := by
  have notUnit : (unitTarget? alternative).isNone = true ↔
      ∀ name, alternative ≠ [.nonTerminal name] := by
    rw [Option.isNone_iff_eq_none, Option.eq_none_iff_forall_ne_some]
    simp only [ne_eq, unitTarget?_eq_some_iff]
  simp only [isBorrowed, Bool.and_eq_true, Bool.or_eq_true, decide_eq_true_eq, notUnit, or_assoc]

/-- What the end of a unit has, its start has too. -/
theorem mem_of_unit {head next : String} {alternative : Alternative}
    (unit : [.nonTerminal next] ∈ grammar.alternatives head)
    (member : alternative ∈ (grammar.inlineUnits borrowsEmpty).grammar.alternatives next)
    (borrowed : borrowsEmpty = true ∨ alternative ≠ EmptyFree.emptyAlternative) :
    alternative ∈ (grammar.inlineUnits borrowsEmpty).grammar.alternatives head := by
  rcases mem_alternatives_result.mp member with ⟨source, leads, inside, taken⟩
  refine mem_alternatives_result.mpr ⟨source, leads.through unit, inside, isBorrowed_iff.mpr ?_⟩
  exact ⟨(isBorrowed_iff.mp taken).1, borrowed.imp_right .inr⟩

theorem mem_of_not_unit {head : String} {alternative : Alternative}
    (member : alternative ∈ grammar.alternatives head)
    (notUnit : ∀ name, alternative ≠ [.nonTerminal name]) :
    alternative ∈ (grammar.inlineUnits borrowsEmpty).grammar.alternatives head :=
  mem_alternatives_result.mpr
    ⟨head, .self grammar head, member, isBorrowed_iff.mpr ⟨notUnit, .inr (.inl rfl)⟩⟩

end UnitFree

open UnitFree

theorem derives_of_inlineUnits {name : String} {word : List String}
    (derives : (grammar.inlineUnits borrowsEmpty).grammar.Derives name word) :
    grammar.Derives name word := by
  apply derives.transfer
  intro head alternative word member yields
  rcases mem_alternatives_result.mp member with ⟨source, leads, inside, _⟩
  exact leads.derives ⟨alternative, inside, yields⟩

/-- Where `ε` is taken over as well, nothing that was derived is lost. -/
theorem derives_unitFree_iff {name : String} {word : List String} :
    grammar.unitFree.grammar.Derives name word ↔ grammar.Derives name word := by
  refine ⟨derives_of_inlineUnits, fun derives => derives.transfer ?_⟩
  intro head alternative word member yields
  by_cases unit : ∃ next, alternative = [.nonTerminal next]
  · rcases unit with ⟨next, rfl⟩
    rcases yields_singleton_iff.mp yields with ⟨last, inside, yields⟩
    exact ⟨last, mem_of_unit member inside (.inl rfl), yields⟩
  · exact ⟨alternative, mem_of_not_unit member (not_exists.mp unit), yields⟩

theorem not_mem_unit_inlineUnits {head name : String} :
    [.nonTerminal name] ∉ (grammar.inlineUnits borrowsEmpty).grammar.alternatives head := by
  intro member
  rcases mem_alternatives_result.mp member with ⟨_, _, _, borrowed⟩
  exact (isBorrowed_iff.mp borrowed).1 name rfl

theorem Forms.inlineUnits {name : String} {word : List String} (forms : grammar.Forms name word) :
    (grammar.inlineUnits borrowsEmpty).grammar.Forms name word := by
  apply forms.transfer
  intro head alternative word member nonempty builds
  by_cases unit : ∃ next, alternative = [.nonTerminal next]
  · rcases unit with ⟨next, rfl⟩
    rcases builds_singleton_iff.mp builds with ⟨_, last, inside, builds⟩
    refine ⟨nonempty, last, mem_of_unit member inside (.inr ?_), builds⟩
    intro same
    cases same
    exact not_builds_empty builds
  · exact ⟨nonempty, alternative, mem_of_not_unit member (not_exists.mp unit), builds⟩

theorem WellFormed.declared_inlined (wellFormed : grammar.WellFormed) {head : String}
    {alternative : Alternative} (member : alternative ∈ alternativesOf grammar borrowsEmpty head)
    {token : Token} (inside : token ∈ alternative) : grammar.Declares token := by
  rcases mem_alternativesOf.mp member with ⟨source, _, belongs, _⟩
  exact wellFormed.token_declared belongs inside

theorem WellFormed.inlineUnits (wellFormed : grammar.WellFormed) :
    (grammar.inlineUnits borrowsEmpty).grammar.WellFormed :=
  rewritten_inlineUnits.wellFormed wellFormed fun _ _ member _ => wellFormed.declared_inlined member

end FormalLanguages.Grammar
