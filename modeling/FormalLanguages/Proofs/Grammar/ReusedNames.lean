import FormalLanguages.Proofs.Grammar.Membership
import FormalLanguages.Proofs.Text.Segmentation

namespace FormalLanguages.Grammar

/-! # Names that are given away again

Normalisation removes the non-terminals that derive nothing but the empty sequence, and
then looks for names to stand for terminals. The names that it has removed are free again,
so a removed `A` may come back as the name of `a`. That is the only way in which a name of
the grammar gets to derive what it did not derive before. -/

variable {grammar : Grammar}

/-- A name that was removed, and that stands for a terminal now. -/
structure Reuses (grammar : Grammar) (name terminal : String) : Prop where
  null : name ∈ grammar.nullNonTerminals
  notStart : grammar.start ≠ some name
  only : grammar.chomsky.grammar.alternatives name = [[.terminal terminal]]

theorem derives_iff_of_only {name terminal : String}
    (only : grammar.alternatives name = [[.terminal terminal]]) {word : List String} :
    grammar.Derives name word ↔ word = [terminal] := by
  simp only [Derives, only, List.mem_singleton, exists_eq_left]
  constructor
  · intro yields
    cases yields with
    | terminal _ tail => rw [yields_nil_iff.mp tail]
  · rintro rfl
    exact yields_terminals [terminal]

/-- Nothing but the empty sequence was derived by the name while it had its old meaning. -/
theorem Reuses.not_derives {name terminal : String} (reuses : Reuses grammar name terminal) :
    ¬ grammar.Derives name [terminal] := fun derives =>
  List.cons_ne_nil _ _ (eq_nil_of_mem_null reuses.null derives)

section WellFormed

variable (wellFormed : grammar.WellFormed)

include wellFormed

/-- A name that derives something in the normal form has been kept, or stands for a
terminal. -/
theorem kept_or_stands {name : String} {word : List String}
    (derives : grammar.chomsky.grammar.Derives name word) :
    name ∈ (Chomsky.inlined grammar).nonTerminals ∨ ∃ terminal,
      Lifted.Stands (Chomsky.inlined grammar) grammar.chomsky.grammar terminal name := by
  have inlinedFormed := Chomsky.wellFormed_inlined wellFormed
  rcases derives with ⟨alternative, member, _⟩
  rw [Chomsky.grammar_chomsky] at member ⊢
  exact inlinedFormed.stands_lifted (inlinedFormed.lifted.head_declared member)

theorem derives_or_reuses {name : String} (declared : name ∈ grammar.nonTerminals)
    {word : List String} (nonempty : word ≠ [])
    (derives : grammar.chomsky.grammar.Derives name word) :
    grammar.Derives name word ∨ ∃ terminal, word = [terminal] ∧ Reuses grammar name terminal := by
  by_cases stays : grammar.start = some name ∨ ¬ name ∈ grammar.nullNonTerminals
  · exact .inl ((wellFormed.derives_chomsky_iff declared stays nonempty).mp derives)
  · rcases kept_or_stands wellFormed derives with kept | ⟨terminal, stands⟩
    · exact .inl (Chomsky.derives_of_result wellFormed declared kept derives)
    · rcases not_or.mp stays with ⟨notStart, null⟩
      exact .inr ⟨terminal, (derives_iff_of_only stands.only).mp derives,
        Classical.not_not.mp null, notStart, stands.only⟩

theorem Reuses.stands {name terminal : String} (reuses : Reuses grammar name terminal)
    (declared : name ∈ grammar.nonTerminals) :
    ¬ name ∈ (Chomsky.inlined grammar).nonTerminals ∧
      Lifted.Stands (Chomsky.inlined grammar) grammar.chomsky.grammar terminal name := by
  have derives := (derives_iff_of_only reuses.only).mpr rfl
  have removed : ¬ name ∈ (Chomsky.inlined grammar).nonTerminals := fun kept =>
    reuses.not_derives (Chomsky.derives_of_result wellFormed declared kept derives)
  rcases (kept_or_stands wellFormed derives).resolve_left removed with ⟨other, stands⟩
  have same : [[Token.terminal other]] = [[.terminal terminal]] :=
    stands.only.symm.trans reuses.only
  cases same
  exact ⟨removed, stands⟩

/-- Only the names that are tried for a terminal can come to stand for it. -/
theorem Reuses.named {name terminal : String} (reuses : Reuses grammar name terminal)
    (declared : name ∈ grammar.nonTerminals) : terminal ∈ grammar.terminals ∧
      ∃ taken, name = Name.freshOrSelf (Lifted.stem terminal) taken := by
  rcases reuses.stands wellFormed declared with ⟨removed, stands⟩
  exact ⟨Chomsky.terminals_inlined wellFormed ▸ stands.isTerminal, stands.invented removed⟩

theorem Reuses.derives_membership {name terminal : String} (reuses : Reuses grammar name terminal)
    (declared : name ∈ grammar.nonTerminals) (nonempty : terminal ≠ "") :
    (grammar.membership terminal).derives name = true := by
  have tokens : grammar.tokenise terminal = [terminal] :=
    Text.split_of_mem (reuses.named wellFormed declared).1 nonempty
  rw [Membership.derives_membership wellFormed, tokens]
  exact ⟨List.cons_ne_nil _ _, (derives_iff_of_only reuses.only).mpr rfl⟩

end WellFormed

/-- Normalisation gives a name a new meaning exactly if it removes the name and then takes it
for a terminal, whose first choice of a name it is or is counted up from. The name then
derives that terminal alone, and the membership table says so of the name too. -/
theorem chomsky_sound_iff_not_reused (grammar : Grammar) (wellFormed : grammar.WellFormed)
    (name : String) (declared : name ∈ grammar.nonTerminals) :
    ((∀ word, word ≠ [] → grammar.chomsky.grammar.Derives name word →
        grammar.Derives name word) ↔ ∀ terminal, ¬ Reuses grammar name terminal) ∧
      (∀ input, (grammar.membership input).derives name = true →
        grammar.Derives name (grammar.tokenise input) ∨
          ∃ terminal, grammar.tokenise input = [terminal] ∧ Reuses grammar name terminal) ∧
      ∀ terminal, Reuses grammar name terminal →
        terminal ∈ grammar.terminals ∧
          (∃ taken, name = Name.freshOrSelf (Lifted.stem terminal) taken) ∧
          (∀ word, grammar.chomsky.grammar.Derives name word ↔ word = [terminal]) ∧
          (terminal ≠ "" → (grammar.membership terminal).derives name = true) := by
  refine ⟨⟨fun sound terminal reuses => ?_, fun unused word nonempty derives => ?_⟩,
    fun input derives => ?_, fun terminal reuses => ?_⟩
  · have derives := (derives_iff_of_only reuses.only).mpr rfl
    exact reuses.not_derives (sound [terminal] (List.cons_ne_nil _ _) derives)
  · refine (derives_or_reuses wellFormed declared nonempty derives).resolve_right fun found => ?_
    rcases found with ⟨terminal, _, reuses⟩
    exact unused terminal reuses
  · rcases (Membership.derives_membership wellFormed).mp derives with ⟨nonempty, inNormal⟩
    exact derives_or_reuses wellFormed declared nonempty inNormal
  · rcases reuses.named wellFormed declared with ⟨isTerminal, invented⟩
    exact ⟨isTerminal, invented, fun _ => derives_iff_of_only reuses.only,
      reuses.derives_membership wellFormed declared⟩

/-- The grammar `S → ab`, `A → ε`. -/
def reusing : Grammar where
  nonTerminals := DeclaredSet.ofList ["S", "A"]
  terminals := DeclaredSet.ofList ["a", "b"]
  productions := DeclaredMap.ofList
    [("S", [[.terminal "a", .terminal "b"]]), ("A", [[.empty]])]
  start := some "S"

theorem chomsky_sound_iff_reusing :
    reusing.WellFormed ∧ "A" ∈ reusing.nonTerminals ∧ Reuses reusing "A" "a" ∧
      ¬ ∀ word, word ≠ [] → reusing.chomsky.grammar.Derives "A" word →
        reusing.Derives "A" word :=
  have wellFormed : reusing.WellFormed := fault?_eq_none_iff.mp (by decide)
  have declared : "A" ∈ reusing.nonTerminals := by decide
  have reuses : Reuses reusing "A" "a" := ⟨by decide, by decide, by decide⟩
  ⟨wellFormed, declared, reuses, fun sound =>
    (chomsky_sound_iff_not_reused reusing wellFormed "A" declared).1.mp sound "a" reuses⟩

/-- `A` derived nothing but the empty sequence, and it derives `a` in the normal form and by
the membership table. -/
theorem chomsky_gives_removed_name_new_meaning :
    reusing.WellFormed ∧ "A" ∈ reusing.nonTerminals ∧
      reusing.chomsky.grammar.Derives "A" ["a"] ∧ ¬ reusing.Derives "A" ["a"] ∧
      (reusing.membership "a").derives "A" = true ∧
      ¬ reusing.Derives "A" (reusing.tokenise "a") := by
  have reuses : Reuses reusing "A" "a" := ⟨by decide, by decide, by decide⟩
  have tokens : reusing.tokenise "a" = ["a"] := by decide
  rw [tokens]
  exact ⟨fault?_eq_none_iff.mp (by decide), by decide, (derives_iff_of_only reuses.only).mpr rfl,
    reuses.not_derives, by decide, reuses.not_derives⟩

end FormalLanguages.Grammar
