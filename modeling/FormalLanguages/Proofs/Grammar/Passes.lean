import FormalLanguages.Grammar.NormalForm.Progress
import FormalLanguages.Proofs.Collection.Members
import FormalLanguages.Proofs.Grammar.Meanings
import Mathlib.Data.List.Nodup

namespace FormalLanguages.Grammar

/-! # What a pass does to a grammar

A pass visits one head after the other. Some passes only exchange the alternatives of
the heads that they visit, and others introduce new non-terminals on the way. -/

variable {grammar : Grammar}

theorem nodup_heads : grammar.heads.Nodup := grammar.productions.nodup

@[simp] theorem mem_addDistinct {known : List Alternative} {alternative other : Alternative} :
    other ∈ addDistinct known alternative ↔ other = alternative ∨ other ∈ known := by
  rw [addDistinct]
  split
  case isTrue member => exact (or_iff_right_of_imp fun same => same ▸ member).symm
  case isFalse => rw [List.mem_append, List.mem_singleton, or_comm]

theorem mem_foldl_addDistinct {known alternatives : List Alternative} {other : Alternative} :
    other ∈ alternatives.foldl addDistinct known ↔ other ∈ alternatives ∨ other ∈ known := by
  refine (foldl_iff (fun known : List Alternative => other ∈ known)
    (fun alternative => other = alternative) (fun _ _ => mem_addDistinct) alternatives
    known).trans ?_
  simp

theorem nodup_addDistinct {known : List Alternative} (nodup : known.Nodup)
    (alternative : Alternative) : (addDistinct known alternative).Nodup := by
  rw [addDistinct]
  split
  case isTrue => exact nodup
  case isFalse new =>
    rw [← List.concat_eq_append]
    exact List.Nodup.concat new nodup

theorem mem_setAlternatives {head other : String} {alternatives : List Alternative} :
    other ∈ (grammar.setAlternatives head alternatives).productions ↔
      other = head ∨ other ∈ grammar.productions := DeclaredMap.mem_insert

/-- The language is what the start symbol derives. -/
theorem accepts_iff_of_start {before after : Grammar} (same : after.start = before.start)
    (derives : ∀ start, before.start = some start → ∀ word,
      (after.Derives start word ↔ before.Derives start word)) (word : List String) :
    after.Accepts word ↔ before.Accepts word := by
  rw [Accepts, Accepts, same]
  exact exists_congr fun start => and_congr_right fun isStart => derives start isStart word

/-- What every visit to a head keeps holds once all heads are visited. -/
theorem foldl_visited {σ : Type} {visit : σ → String → σ} (holds : List String → σ → Prop)
    {heads : List String} (nodup : heads.Nodup)
    (step : ∀ visited state head, head ∈ heads → head ∉ visited → holds visited state →
      holds (visited ++ [head]) (visit state head)) {state : σ} (start : holds [] state) :
    holds heads (heads.foldl visit state) := by
  have later : ∀ rest visited state, heads = visited ++ rest → holds visited state →
      holds heads (rest.foldl visit state) := by
    intro rest
    induction rest with
    | nil =>
        intro visited state whole known
        rwa [whole, List.append_nil]
    | cons head rest induction =>
        intro visited state whole known
        have member : head ∈ heads := whole ▸ List.mem_append_right _ List.mem_cons_self
        have fresh : head ∉ visited := fun before =>
          (List.nodup_append.mp (whole ▸ nodup)).2.2 head before head List.mem_cons_self rfl
        exact induction (visited ++ [head]) (visit state head)
          (whole.trans (List.append_cons visited head rest))
          (step visited state head member fresh known)
  exact later heads [] state rfl start

/-! ## Passes that exchange alternatives -/

/-- The visited heads have new alternatives, and nothing else is different. -/
structure Rewritten (before : Grammar) (visited : List String)
    (after : String → List Alternative) (result : Grammar) : Prop where
  nonTerminals : result.nonTerminals = before.nonTerminals
  terminals : result.terminals = before.terminals
  start : result.start = before.start
  productions : ∀ head, head ∈ result.productions ↔ head ∈ before.productions
  alternatives : ∀ head, result.alternatives head =
    if head ∈ visited then after head else before.alternatives head

section Rewritten

variable {given : Grammar} {visited : List String} {after : String → List Alternative}
  {head : String}

/-- Nothing has to be set where the new alternatives are the old ones. -/
theorem Rewritten.unchanged (known : Rewritten given visited after grammar)
    (same : after head = given.alternatives head) (fresh : head ∉ visited) :
    Rewritten given (visited ++ [head]) after grammar := by
  refine ⟨known.nonTerminals, known.terminals, known.start, known.productions, fun other => ?_⟩
  rw [known.alternatives]
  by_cases last : other = head
  · simp [last, fresh, same]
  · simp [last]

theorem Rewritten.setAlternatives (known : Rewritten given visited after grammar)
    (declared : head ∈ given.productions) :
    Rewritten given (visited ++ [head]) after (grammar.setAlternatives head (after head)) where
  nonTerminals := known.nonTerminals
  terminals := known.terminals
  start := known.start
  productions other := by
    rw [mem_setAlternatives, known.productions]
    exact or_iff_right_of_imp fun same => same ▸ declared
  alternatives other := by
    rw [alternatives_setAlternatives, known.alternatives]
    by_cases last : head = other
    · simp [last]
    · simp [last, Ne.symm last]

theorem Rewritten.declares (known : Rewritten given visited after grammar) {token : Token}
    (declared : given.Declares token) : grammar.Declares token := by
  cases token with
  | empty => trivial
  | terminal name =>
      change name ∈ grammar.terminals
      rw [known.terminals]
      exact declared
  | nonTerminal name =>
      change name ∈ grammar.nonTerminals
      rw [known.nonTerminals]
      exact declared

/-- The new alternatives may mention what was declared before. -/
theorem Rewritten.wellFormed (known : Rewritten given visited after grammar)
    (wellFormed : given.WellFormed) (declared : ∀ head alternative, alternative ∈ after head →
      ∀ token, token ∈ alternative → given.Declares token) : grammar.WellFormed := by
  refine .of_alternatives (fun head inside => ?_)
    (fun head alternative member token inside => known.declares ?_) fun start isStart => ?_
  · rw [known.nonTerminals]
    exact wellFormed.heads head ((known.productions head).mp inside)
  · rw [known.alternatives] at member
    split at member
    · exact declared head alternative member token inside
    · exact wellFormed.token_declared member inside
  · rw [known.nonTerminals]
    exact wellFormed.start start (known.start ▸ isStart)

section Pass

variable {visit : Progress → String → Progress}
  (step : ∀ progress head, (visit progress head).grammar =
    if after head = given.alternatives head then progress.grammar
    else progress.grammar.setAlternatives head (after head))

include step

theorem Rewritten.next {progress : Progress} (known : Rewritten given visited after progress.grammar)
    (member : head ∈ given.heads) (fresh : head ∉ visited) :
    Rewritten given (visited ++ [head]) after (visit progress head).grammar := by
  rw [step]
  split
  case isTrue same => exact known.unchanged same fresh
  case isFalse => exact known.setAlternatives member

omit step in
theorem rewritten_start : Rewritten given [] after given :=
  ⟨rfl, rfl, rfl, fun _ => Iff.rfl, fun _ => (if_neg List.not_mem_nil).symm⟩

/-- A pass over all heads of a grammar gives each head its new alternatives. -/
theorem rewritten_pass :
    Rewritten given given.heads after (given.heads.foldl visit (.start given)).grammar :=
  foldl_visited (fun visited (progress : Progress) => Rewritten given visited after progress.grammar)
    nodup_heads (fun _ _ _ member fresh known => known.next step member fresh) rewritten_start

end Pass

end Rewritten

/-! ## Passes that introduce non-terminals -/

theorem alternatives_addAlternative (grammar : Grammar) (head other : String)
    (alternative : Alternative) : (grammar.addAlternative head alternative).alternatives other =
      if head = other then grammar.alternatives head ++ [alternative]
      else grammar.alternatives other := alternatives_setAlternatives grammar head other _

theorem mem_addNonTerminal {name other : String} :
    other ∈ (grammar.addNonTerminal name).nonTerminals ↔
      other = name ∨ other ∈ grammar.nonTerminals := DeclaredSet.mem_insert

theorem not_mem_nonTerminals {name : String} (free : name ∉ grammar.symbolNames) :
    ¬ name ∈ grammar.nonTerminals := fun declared => free (List.mem_append_left _ declared)

def HeadsDeclared (grammar : Grammar) : Prop :=
  ∀ head, head ∈ grammar.productions → head ∈ grammar.nonTerminals

theorem HeadsDeclared.alternatives_eq_nil (declared : grammar.HeadsDeclared) {name : String}
    (new : ¬ name ∈ grammar.nonTerminals) : grammar.alternatives name = [] :=
  Grammar.alternatives_eq_nil fun inside => new (declared name inside)

/-- The non-terminals that are not listed keep their alternatives, and new ones may join. -/
structure Extends (before : Grammar) (changed : List String) (after : Grammar) : Prop where
  terminals : after.terminals = before.terminals
  start : after.start = before.start
  nonTerminals : ∀ name, name ∈ before.nonTerminals → name ∈ after.nonTerminals
  alternatives : ∀ name, name ∈ before.nonTerminals → name ∉ changed →
    after.alternatives name = before.alternatives name
  heads : before.HeadsDeclared → after.HeadsDeclared

namespace Extends

variable {before between after : Grammar} {changed later all : List String}

theorem refl (grammar : Grammar) (changed : List String) : Extends grammar changed grammar :=
  ⟨rfl, rfl, fun _ => id, fun _ _ _ => rfl, id⟩

theorem trans (first : Extends before changed between) (second : Extends between later after)
    (covered : ∀ name, name ∈ before.nonTerminals → name ∈ changed ∨ name ∈ later → name ∈ all) :
    Extends before all after where
  terminals := second.terminals.trans first.terminals
  start := second.start.trans first.start
  nonTerminals name declared := second.nonTerminals name (first.nonTerminals name declared)
  alternatives name declared kept := by
    rw [second.alternatives name (first.nonTerminals name declared)
        fun inside => kept (covered name declared (.inr inside)),
      first.alternatives name declared fun inside => kept (covered name declared (.inl inside))]
  heads declared := second.heads (first.heads declared)

/-- What changes a new non-terminal only changes nothing of the grammar before it. -/
theorem trans_new {new : String} (first : Extends before changed between)
    (second : Extends between [new] after) (free : ¬ new ∈ before.nonTerminals) :
    Extends before changed after :=
  first.trans second fun _ declared either => either.resolve_right fun inside =>
    free (List.mem_singleton.mp inside ▸ declared)

theorem addNonTerminal (grammar : Grammar) (name : String) :
    Extends grammar [] (grammar.addNonTerminal name) where
  terminals := rfl
  start := rfl
  nonTerminals _ declared := mem_addNonTerminal.mpr (.inr declared)
  alternatives _ _ _ := rfl
  heads declared head inside := mem_addNonTerminal.mpr (.inr (declared head inside))

theorem setAlternatives {head : String} {alternatives : List Alternative}
    (declared : head ∈ grammar.nonTerminals) :
    Extends grammar [head] (grammar.setAlternatives head alternatives) where
  terminals := rfl
  start := rfl
  nonTerminals _ := id
  alternatives name _ kept := by
    rw [alternatives_setAlternatives, if_neg fun same => kept (List.mem_singleton.mpr same.symm)]
  heads known other inside := (mem_setAlternatives.mp inside).elim (· ▸ declared) (known other)

theorem declares (grows : Extends before changed after) {token : Token}
    (declared : before.Declares token) : after.Declares token := by
  cases token with
  | empty => trivial
  | terminal name =>
      change name ∈ after.terminals
      rw [grows.terminals]
      exact declared
  | nonTerminal name => exact grows.nonTerminals name declared

end Extends

end FormalLanguages.Grammar
