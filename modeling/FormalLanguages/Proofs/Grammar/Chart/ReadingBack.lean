import FormalLanguages.Proofs.Grammar.Chart.Filling

namespace FormalLanguages.Grammar.Chart

/-! # Reading trees back

An entry leads to entries that are older, even when they are about the same part. So no entry
leads to a span that is missing, and reading back is over after as many steps as there are
entries. -/

variable {chart next : Chart} {tokens : List Token} {token : Token} {name : String}
  {first last : Nat}

/-! ## No span is missing -/

namespace Extends

variable (larger : Extends chart next)

include larger

theorem matches_of_matches (here : Matches chart token first last) :
    Matches next token first last := by
  cases token with
  | nonTerminal => exact larger.charted here
  | terminal => rwa [Matches, larger.input]
  | empty => exact here

theorem ends {ends : List Nat} (known : Ends chart tokens first last ends) :
    Ends next tokens first last ends := by
  induction tokens generalizing first ends with
  | nil => exact known
  | cons token rest induction =>
      rcases known with ⟨middle, later, rfl, after, before, here, known⟩
      have here := fits_iff.mpr (larger.matches_of_matches (fits_iff.mp here))
      exact ⟨middle, later, rfl, after, before, here, induction known⟩

end Extends

theorem Grounded.exists_ends_of_get? (grounded : Grounded chart) {span : Span} {split : Split}
    (known : chart.get? span = some split) : ∃ alternative,
      (chart.grammar.alternatives span.nonTerminal)[split.alternative]? = some alternative ∧
        Ends chart alternative span.first span.last split.ends := by
  induction grounded with
  | empty => cases known
  | @found chart recorded chosen alternative _ new taken ends induction =>
      have larger := Extends.record new chosen
      rw [get?_record] at known
      split at known
      case isTrue same =>
        cases same
        cases known
        exact ⟨alternative, taken, larger.ends ends⟩
      case isFalse =>
        rcases induction known with ⟨alternative, taken, ends⟩
        exact ⟨alternative, taken, larger.ends ends⟩

/-! ## One branch -/

section Children

variable {child? more? : Token → Nat → Nat → Option ParseTree} {ends : List Nat}

theorem children?_cons_eq_some_iff {stop : Nat} {children : List ParseTree} :
    children? child? (token :: tokens) first (stop :: ends) = some children ↔
      ∃ child rest, child? token first stop = some child ∧
        children? child? tokens stop ends = some rest ∧ child :: rest = children := by
  simp only [children?, Option.bind_eq_bind, Option.bind_eq_some_iff, Option.pure_def,
    Option.some_inj, exists_and_left]

theorem exists_children (known : Ends chart tokens first last ends)
    (all : ∀ token first last, Matches chart token first last →
      ∃ tree, child? token first last = some tree) :
    ∃ children, children? child? tokens first ends = some children := by
  induction tokens generalizing first ends with
  | nil => exact ⟨[], rfl⟩
  | cons token rest induction =>
      rcases known with ⟨middle, later, rfl, _, _, here, known⟩
      rcases all token first middle (fits_iff.mp here) with ⟨child, found⟩
      rcases induction known with ⟨children, others⟩
      exact ⟨child :: children,
        children?_cons_eq_some_iff.mpr ⟨child, children, found, others, rfl⟩⟩

theorem children?_mono (more : ∀ token first last tree, child? token first last = some tree →
    more? token first last = some tree) {children : List ParseTree}
    (found : children? child? tokens first ends = some children) :
    children? more? tokens first ends = some children := by
  induction tokens generalizing first ends children with
  | nil => exact found
  | cons token rest induction =>
      cases ends with
      | nil => exact found
      | cons stop ends =>
          rcases children?_cons_eq_some_iff.mp found with ⟨child, others, here, later, rfl⟩
          exact children?_cons_eq_some_iff.mpr
            ⟨child, others, more token first stop child here, induction later, rfl⟩

theorem branch?_eq_some_iff {tree : ParseTree} :
    chart.branch? child? name first last = some tree ↔ ∃ split alternative children,
      chart.get? ⟨name, first, last⟩ = some split ∧
      (chart.grammar.alternatives name)[split.alternative]? = some alternative ∧
      children? child? alternative first split.ends = some children ∧
      .branch name (Forest.ofList children) = tree := by
  simp only [branch?, Option.bind_eq_bind, Option.bind_eq_some_iff, Option.pure_def,
    Option.some_inj, exists_and_left]

theorem branch?_mono (larger : Extends chart next) (more : ∀ token first last tree,
    child? token first last = some tree → more? token first last = some tree) {tree : ParseTree}
    (found : chart.branch? child? name first last = some tree) :
    next.branch? more? name first last = some tree := by
  rcases branch?_eq_some_iff.mp found with ⟨split, alternative, children, known, taken, below, same⟩
  refine branch?_eq_some_iff.mpr ⟨split, alternative, children, larger.kept _ _ known, ?_,
    children?_mono more below, same⟩
  rwa [larger.grammar]

end Children

/-! ## All the way down -/

theorem treeWithin?_mono (larger : Extends chart next) {depth more : Nat} (deeper : depth ≤ more)
    {tree : ParseTree} (found : chart.treeWithin? depth token first last = some tree) :
    next.treeWithin? more token first last = some tree := by
  induction depth generalizing more token first last tree with
  | zero =>
      cases token with
      | nonTerminal => cases found
      | terminal | empty => simpa using found
  | succ depth induction =>
      cases token with
      | nonTerminal name =>
          rcases Nat.exists_eq_add_one_of_ne_zero (Nat.ne_zero_of_lt deeper) with ⟨more, rfl⟩
          exact branch?_mono larger
            (fun _ _ _ _ => induction (Nat.le_of_succ_le_succ deeper)) found
      | terminal | empty => simpa using found

theorem charted_of_treeWithin? {depth : Nat} {tree : ParseTree}
    (found : chart.treeWithin? depth (.nonTerminal name) first last = some tree) :
    Charted chart name first last := by
  cases depth with
  | zero => cases found
  | succ depth =>
      rcases branch?_eq_some_iff.mp found with ⟨split, _, _, known, _⟩
      exact Option.isSome_of_eq_some known

theorem exists_tree_of_matches {depth : Nat}
    (below : ∀ name, Charted chart name first last →
      ∃ tree, next.treeWithin? depth (.nonTerminal name) first last = some tree)
    (here : Matches chart token first last) :
    ∃ tree, next.treeWithin? depth token first last = some tree := by
  cases token with
  | nonTerminal name => exact below name here
  | terminal name => exact ⟨.terminal name, treeWithin?_terminal ..⟩
  | empty => exact ⟨.empty, treeWithin?_empty ..⟩

namespace Grounded

variable (grounded : Grounded chart)

include grounded

/-- By induction on the entries: what the newest one leads to is read back from the others. -/
theorem exists_tree (charted : Charted chart name first last) :
    ∃ tree, chart.tree? name first last = some tree := by
  induction grounded generalizing name first last with
  | empty => cases charted
  | @found chart span split alternative _ new taken known induction =>
      have larger := Extends.record new split
      have older : ∀ name low high, Charted chart name low high → ∃ tree,
          (chart.record span split).treeWithin? chart.derived.length (.nonTerminal name) low high =
            some tree := by
        intro name low high charted
        rcases induction charted with ⟨tree, found⟩
        exact ⟨tree, treeWithin?_mono larger (Nat.le_refl _) found⟩
      rcases charted_record.mp charted with rfl | before
      · rcases exists_children known fun token low high =>
          exists_tree_of_matches fun name => older name low high with ⟨children, found⟩
        exact ⟨.branch name (Forest.ofList children), branch?_eq_some_iff.mpr
          ⟨split, alternative, children, if_pos rfl, taken, found, rfl⟩⟩
      · rcases older name first last before with ⟨tree, found⟩
        exact ⟨tree, treeWithin?_mono (.refl _) (Nat.le_succ _) found⟩

theorem isSome_tree?_iff :
    (chart.tree? name first last).isSome = true ↔ Charted chart name first last := by
  constructor
  · intro found
    rcases Option.isSome_iff_exists.mp found with ⟨tree, found⟩
    exact charted_of_treeWithin? found
  · exact fun charted => Option.isSome_iff_exists.mpr (grounded.exists_tree charted)

/-- Reading back is never cut off. -/
theorem treeWithin?_eq_tree? {depth : Nat} (enough : chart.derived.length ≤ depth) :
    chart.treeWithin? depth (.nonTerminal name) first last = chart.tree? name first last := by
  refine Option.ext fun tree => ⟨fun found => ?_, treeWithin?_mono (.refl chart) enough⟩
  rcases grounded.exists_tree (charted_of_treeWithin? found) with ⟨other, known⟩
  have same := treeWithin?_mono (.refl chart) enough known
  rw [known, ← same, found]

/-- The tree of a span is a branch over the trees that its entry leads to. -/
theorem tree?_eq_branch? : chart.tree? name first last =
    chart.branch? (chart.treeWithin? chart.derived.length) name first last :=
  (grounded.treeWithin?_eq_tree? (Nat.le_succ _)).symm

end Grounded

end FormalLanguages.Grammar.Chart
