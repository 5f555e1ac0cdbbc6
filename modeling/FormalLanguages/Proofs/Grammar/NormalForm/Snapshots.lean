import FormalLanguages.Proofs.Grammar.NormalForm.Chomsky

namespace FormalLanguages.Grammar

/-! # The grammars that a pass shows

Not only the last grammar of a pass is well-formed and has the start symbol and the terminals of
the given one. The same is true of every grammar that the pass shows on the way. -/

variable {given grammar : Grammar}

/-- What a pass keeps of a grammar all the time. -/
structure Upholds (given grammar : Grammar) : Prop where
  wellFormed : grammar.WellFormed
  start : grammar.start = given.start
  terminals : grammar.terminals = given.terminals

theorem Upholds.trans {between : Grammar} (first : Upholds given between)
    (second : Upholds between grammar) : Upholds given grammar :=
  ⟨second.wellFormed, second.start.trans first.start, second.terminals.trans first.terminals⟩

/-! ## Progress -/

namespace Progress

variable {holds : Grammar → Prop} {before after : Progress}

/-- The grammar that was reached, and all that were shown. -/
structure Throughout (holds : Grammar → Prop) (progress : Progress) : Prop where
  reached : holds progress.grammar
  shown : ∀ step, step ∈ progress.steps → holds step.snapshot

/-- What is reached next is shown, if anything is. -/
def Advances (before after : Progress) : Prop :=
  after.steps = before.steps ∨
    ∃ description, after.steps = before.steps ++ [Step.described after.grammar description]

theorem advances_unless {done : Prop} [Decidable done] {progress : Progress} {description : String} :
    Advances progress (if done then progress else progress.reach grammar description) := by
  split
  · exact .inl rfl
  · exact .inr ⟨description, rfl⟩

theorem Throughout.advance (known : before.Throughout holds) (advances : Advances before after)
    (reached : holds after.grammar) : after.Throughout holds := by
  refine ⟨reached, fun step member => ?_⟩
  rcases advances with same | ⟨description, more⟩
  · exact known.shown step (same ▸ member)
  · rw [more, List.mem_append, List.mem_singleton] at member
    rcases member with earlier | rfl
    · exact known.shown step earlier
    · exact reached

theorem Throughout.continue (first : before.Throughout holds) {pass : Grammar → Progress}
    (second : (pass before.grammar).Throughout holds) : (before.continue pass).Throughout holds where
  reached := second.reached
  shown step member := (List.mem_append.mp member).elim (first.shown step) (second.shown step)

/-- What is kept by visits to heads, and makes every grammar what it should be, is enough. -/
theorem throughout_visits {σ : Type} {visit : σ → String → σ} (progress : σ → Progress)
    (known : List String → σ → Prop) {heads : List String} (nodup : heads.Nodup) {state : σ}
    (start : known [] state) (quiet : (progress state).steps = [])
    (next : ∀ visited state head, head ∈ heads → head ∉ visited → known visited state →
      known (visited ++ [head]) (visit state head))
    (sound : ∀ visited state, known visited state → holds (progress state).grammar)
    (advances : ∀ state head, Advances (progress state) (progress (visit state head))) :
    (progress (heads.foldl visit state)).Throughout holds := by
  have first : (progress state).Throughout holds :=
    ⟨sound [] state start, fun step member => absurd (quiet ▸ member) List.not_mem_nil⟩
  have all : known heads (heads.foldl visit state) ∧
      (progress (heads.foldl visit state)).Throughout holds :=
    foldl_visited (fun visited state => known visited state ∧ (progress state).Throughout holds)
      nodup (fun visited state head member fresh both => by
        have kept := next visited state head member fresh both.1
        exact ⟨kept, both.2.advance (advances state head) (sound _ _ kept)⟩) ⟨start, first⟩
  exact all.2

end Progress

open Progress

/-! ## Each pass -/

theorem throughout_rewriting {visit : Progress → String → Progress}
    {after : String → List Alternative} (wellFormed : given.WellFormed)
    (declared : ∀ head alternative, alternative ∈ after head →
      ∀ token, token ∈ alternative → given.Declares token)
    (step : ∀ progress head, (visit progress head).grammar =
      if after head = given.alternatives head then progress.grammar
      else progress.grammar.setAlternatives head (after head))
    (advances : ∀ progress head, Advances progress (visit progress head)) :
    (given.heads.foldl visit (.start given)).Throughout (Upholds given) := by
  refine throughout_visits id (fun visited progress => Rewritten given visited after progress.grammar)
    nodup_heads rewritten_start rfl (fun _ _ _ member fresh known => known.next step member fresh)
    (fun _ _ known => ?_) advances
  exact ⟨known.wellFormed wellFormed declared, known.start, known.terminals⟩

section WellFormed

variable (wellFormed : grammar.WellFormed)

include wellFormed

theorem WellFormed.throughout_binary : grammar.binary.Throughout (Upholds grammar) := by
  refine throughout_visits id
    (fun visited progress => Binary.VisitedUpTo grammar visited progress.grammar) nodup_heads
    Binary.visited_start rfl (fun _ _ head member fresh known => ?_) (fun _ _ known => ?_)
    fun progress head => ?_
  · exact known.next wellFormed (wellFormed.heads head member) fresh
  · exact ⟨known.wellFormed wellFormed, known.grows.start, known.grows.terminals⟩
  · exact advances_unless

theorem WellFormed.throughout_emptyFree : grammar.emptyFree.Throughout (Upholds grammar) := by
  have advances (progress : Progress) (head : String) : Advances progress (EmptyFree.visit grammar
      grammar.nullableNonTerminals grammar.nullNonTerminals progress head) := by
    rw [EmptyFree.visit]
    split
    · exact .inl rfl
    · exact advances_unless
  have visited := throughout_rewriting wellFormed
    (fun _ _ member _ => wellFormed.declared_rewriting member) EmptyFree.grammar_visit advances
  have last : Upholds grammar grammar.emptyFree.grammar :=
    ⟨wellFormed.emptyFree, EmptyFree.start_result, EmptyFree.terminals_result⟩
  exact visited.advance advances_unless last

theorem WellFormed.throughout_inlineUnits (borrowsEmpty : Bool) :
    (grammar.inlineUnits borrowsEmpty).Throughout (Upholds grammar) := by
  have advances (progress : Progress) (head : String) :
      Advances progress (UnitFree.visit grammar borrowsEmpty progress head) := advances_unless
  exact throughout_rewriting wellFormed (fun _ _ member _ => wellFormed.declared_inlined member)
    UnitFree.grammar_visit advances

theorem WellFormed.throughout_lifted : grammar.lifted.Throughout (Upholds grammar) := by
  refine throughout_visits Lifted.State.progress (Lifted.VisitedUpTo grammar) nodup_heads
    (Lifted.visited_start wellFormed) rfl (fun _ _ head member fresh known => ?_)
    (fun _ _ known => ?_) fun state head => ?_
  · exact known.next wellFormed (wellFormed.heads head member) fresh
  · exact ⟨known.wellFormed wellFormed, known.grows.start, known.grows.terminals⟩
  · rw [Lifted.visit_eq]
    split
    · exact .inl rfl
    · exact .inr ⟨_, rfl⟩

theorem WellFormed.throughout_chomsky : grammar.chomsky.Throughout (Upholds grammar) := by
  have further {progress : Progress} (known : progress.Throughout (Upholds grammar))
      {pass : Grammar → Progress} (keeps : ∀ grammar, grammar.WellFormed →
        (pass grammar).Throughout (Upholds grammar)) :
      (progress.continue pass).Throughout (Upholds grammar) := by
    have next := keeps progress.grammar known.reached.wellFormed
    exact known.continue ⟨known.reached.trans next.reached,
      fun step member => known.reached.trans (next.shown step member)⟩
  have split := wellFormed.throughout_binary
  have solid := further split fun _ => WellFormed.throughout_emptyFree
  have inlined := further solid fun _ => (WellFormed.throughout_inlineUnits · false)
  exact further inlined fun _ => WellFormed.throughout_lifted

end WellFormed

end FormalLanguages.Grammar
