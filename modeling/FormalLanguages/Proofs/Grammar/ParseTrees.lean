import FormalLanguages.Grammar.DerivationTree
import FormalLanguages.Proofs.Grammar.Chart.ReadingBack
import FormalLanguages.Proofs.Text.Segmentation

namespace FormalLanguages.Grammar

/-! # The trees that the parser finds

A tree that is read back from the chart takes alternatives of the grammar, and its leaves are
the part of the input that it stands for. -/

variable {grammar : Grammar} {input : List String} {tokens : List Token} {first last : Nat}

/-- A tree shows how a token derives a part of the input. -/
structure Covers (grammar : Grammar) (input : List String) (token : Token) (first last : Nat)
    (tree : ParseTree) : Prop where
  root : tree.root = token
  follows : tree.Follows grammar
  terminals : tree.terminals = part input first (last - first)

structure CoverAll (grammar : Grammar) (input : List String) (tokens : List Token)
    (first last : Nat) (trees : Forest) : Prop where
  roots : trees.roots = tokens
  follow : trees.Follow grammar
  terminals : trees.terminals = part input first (last - first)

theorem CoverAll.nil : CoverAll grammar input [] first first .nil where
  roots := rfl
  follow := trivial
  terminals := by
    rw [Nat.sub_self, part_zero]
    rfl

theorem CoverAll.cons {token : Token} {tree : ParseTree} {trees : Forest} {middle : Nat}
    (order : first ≤ middle) (later : middle ≤ last)
    (here : Covers grammar input token first middle tree)
    (rest : CoverAll grammar input tokens middle last trees) :
    CoverAll grammar input (token :: tokens) first last (.cons tree trees) where
  roots := List.cons_eq_cons.mpr ⟨here.root, rest.roots⟩
  follow := ⟨here.follows, rest.follow⟩
  terminals := by
    have sizes : last - first = (middle - first) + (last - middle) := by omega
    rw [Forest.terminals, here.terminals, rest.terminals, sizes, part_add,
      Nat.add_sub_cancel' order]

theorem CoverAll.branch {name : String} {alternative : Alternative} {trees : Forest}
    (member : alternative ∈ grammar.alternatives name)
    (all : CoverAll grammar input alternative first last trees) :
    Covers grammar input (.nonTerminal name) first last (.branch name trees) where
  root := rfl
  follows := ⟨all.roots ▸ member, all.follow⟩
  terminals := all.terminals

open Chart

/-! ## Trees of the chart -/

variable {chart : Chart} {token : Token} {tree : ParseTree}

theorem covers_of_matches (here : Matches chart token first last)
    (below : ∀ name, token = .nonTerminal name →
      Covers chart.grammar chart.input (.nonTerminal name) first last tree)
    {depth : Nat} (found : chart.treeWithin? depth token first last = some tree) :
    Covers chart.grammar chart.input token first last tree := by
  cases token with
  | nonTerminal name => exact below name rfl
  | terminal name =>
      rcases here with ⟨rfl, known⟩
      rw [treeWithin?_terminal] at found
      cases found
      refine ⟨rfl, trivial, ?_⟩
      rw [Nat.add_sub_cancel_left, part_one_iff.mpr known]
      rfl
  | empty =>
      cases (show first = last from here)
      rw [treeWithin?_empty] at found
      cases found
      refine ⟨rfl, trivial, ?_⟩
      rw [Nat.sub_self, part_zero]
      rfl

theorem coverAll_of_children? {child? : Token → Nat → Nat → Option ParseTree}
    (below : ∀ token first last tree, Matches chart token first last →
      child? token first last = some tree →
      Covers chart.grammar chart.input token first last tree)
    {ends : List Nat} {children : List ParseTree} (known : Ends chart tokens first last ends)
    (found : children? child? tokens first ends = some children) :
    CoverAll chart.grammar chart.input tokens first last (Forest.ofList children) := by
  induction tokens generalizing first ends children with
  | nil =>
      rcases known with ⟨rfl, rfl⟩
      cases found
      exact .nil
  | cons token rest induction =>
      rcases known with ⟨middle, later, rfl, after, before, here, known⟩
      rcases children?_cons_eq_some_iff.mp found with ⟨child, others, one, all, rfl⟩
      exact .cons after before (below _ _ _ child (fits_iff.mp here) one) (induction known all)

/-- The induction is on the depth, as a child may cover the same part as its parent. -/
theorem Chart.Grounded.covers (grounded : Grounded chart) {depth : Nat}
    (here : Matches chart token first last)
    (found : chart.treeWithin? depth token first last = some tree) :
    Covers chart.grammar chart.input token first last tree := by
  induction depth generalizing token first last tree with
  | zero =>
      refine covers_of_matches here (fun name same => ?_) found
      cases same
      cases found
  | succ depth induction =>
      refine covers_of_matches here (fun name same => ?_) found
      cases same
      rcases branch?_eq_some_iff.mp found with ⟨_, _, _, known, taken, all, rfl⟩
      rcases grounded.exists_ends_of_get? known with ⟨_, same, ends⟩
      cases taken.symm.trans same
      exact (coverAll_of_children? (fun _ _ _ _ => induction) ends all).branch
        (List.mem_of_getElem? taken)

/-! ## Leaves -/

mutual
/-- A leaf is a token of the alternative that is taken above it. -/
theorem mem_terminals_of_follows (wellFormed : grammar.WellFormed) {name : String} :
    (tree : ParseTree) → tree.Follows grammar → grammar.Declares tree.root →
      name ∈ tree.terminals → name ∈ grammar.terminals
  | .branch _ children, follows, _, member =>
      mem_terminals_of_follow wellFormed children follows.2
        (fun _ => wellFormed.token_declared follows.1) member
  | .terminal _, _, declared, member => List.mem_singleton.mp member ▸ declared
  | .empty, _, _, member => absurd member List.not_mem_nil

theorem mem_terminals_of_follow (wellFormed : grammar.WellFormed) {name : String} :
    (trees : Forest) → trees.Follow grammar →
      (∀ token, token ∈ trees.roots → grammar.Declares token) →
      name ∈ trees.terminals → name ∈ grammar.terminals
  | .nil, _, _, member => absurd member List.not_mem_nil
  | .cons first rest, follow, declared, member => by
      rcases List.forall_mem_cons.mp declared with ⟨here, later⟩
      rcases List.mem_append.mp member with inFirst | inRest
      · exact mem_terminals_of_follows wellFormed first follow.1 here inFirst
      · exact mem_terminals_of_follow wellFormed rest follow.2 later inRest
end

mutual
/-- Nothing is left out of the text unless a terminal shows as `ε`. -/
theorem toList_yield : (tree : ParseTree) →
    (∀ name, name ∈ tree.terminals → name ≠ Token.emptyText) →
    tree.yield.toList = tree.terminals.flatMap String.toList
  | .branch _ children, shown => toList_yield_forest children shown
  | .terminal name, shown => by
      have own : leafYield name = name := if_neg (shown name List.mem_cons_self)
      rw [ParseTree.yield, own]
      exact (List.flatMap_singleton ..).symm
  | .empty, _ => rfl

theorem toList_yield_forest : (trees : Forest) →
    (∀ name, name ∈ trees.terminals → name ≠ Token.emptyText) →
    trees.yield.toList = trees.terminals.flatMap String.toList
  | .nil, _ => rfl
  | .cons first rest, shown => by
      rcases List.forall_mem_append.mp shown with ⟨here, later⟩
      rw [Forest.yield, String.toList_append, toList_yield first here,
        toList_yield_forest rest later, Forest.terminals, List.flatMap_append]
end

/-! ## What the parser returns -/

theorem tree?_of_parse? {input : String} (parsed : grammar.parse? input = some tree) :
    ∃ start, grammar.start = some start ∧
      (fill grammar (grammar.tokenise input)).tree? start 0 (grammar.tokenise input).length =
        some tree := by
  rw [parse?] at parsed
  split at parsed
  case h_1 => cases parsed
  case h_2 start isStart =>
    split at parsed
    case isTrue => cases parsed
    case isFalse => exact ⟨start, isStart, parsed⟩

theorem covers_of_tree?_fill {name : String}
    (found : (fill grammar input).tree? name first last = some tree) :
    Covers grammar input (.nonTerminal name) first last tree := by
  have filled := filled_fill grammar input
  have here : Matches (fill grammar input) (.nonTerminal name) first last :=
    charted_of_treeWithin? found
  have covers := filled.grounded.covers here found
  rwa [filled.sameGrammar, filled.sameInput] at covers

/-- A tree that is returned derives the input from the start symbol: each branch takes an
alternative, the leaves are the tokens of the input, and they show as the input unless a
terminal is called `ε`. It is the tree that is read back from the chart, however deep reading
back may go. -/
theorem parse_tree_exact (grammar : Grammar) (wellFormed : grammar.WellFormed) (input : String)
    (tree : ParseTree) (parsed : grammar.parse? input = some tree) :
    (∃ start, grammar.start = some start ∧ tree.root = .nonTerminal start ∧
      ∀ depth, (fill grammar (grammar.tokenise input)).derived.length ≤ depth →
        (fill grammar (grammar.tokenise input)).treeWithin? depth (.nonTerminal start) 0
          (grammar.tokenise input).length = some tree) ∧
      tree.Follows grammar ∧
      tree.terminals = grammar.tokenise input ∧
      (¬ Token.emptyText ∈ grammar.terminals → tree.yield = input) := by
  rcases tree?_of_parse? parsed with ⟨start, isStart, found⟩
  rcases covers_of_tree?_fill found with ⟨root, follows, terminals⟩
  rw [Nat.sub_zero, part_whole] at terminals
  refine ⟨⟨start, isStart, root, fun depth enough => ?_⟩, follows, terminals, fun foreign => ?_⟩
  · exact ((filled_fill ..).grounded.treeWithin?_eq_tree? enough).trans found
  · have declared : grammar.Declares tree.root := root ▸ wellFormed.start start isStart
    have shown : ∀ name, name ∈ tree.terminals → name ≠ Token.emptyText := by
      rintro name member rfl
      exact foreign (mem_terminals_of_follows wellFormed tree follows declared member)
    apply String.toList_injective
    rw [toList_yield tree shown, terminals, tokenise, Text.flatMap_split]

/-- One terminal begins another one, units make a cycle, and `N` may be empty on both sides of
a unit. -/
def nested : Grammar where
  nonTerminals := DeclaredSet.ofList ["S", "A", "N"]
  terminals := DeclaredSet.ofList ["a", "ab"]
  productions := DeclaredMap.ofList
    [("S", [[.nonTerminal "A"], [.terminal "a", .empty, .nonTerminal "S"]]),
      ("A", [[.nonTerminal "S"], [.nonTerminal "N", .terminal "ab"]]),
      ("N", [[], [.nonTerminal "N", .nonTerminal "A", .nonTerminal "N"]])]
  start := some "S"

/-- The inner `S` has a child for the same part, and the `N` has a part that is empty. -/
def nestedTree : ParseTree :=
  .branch "S" (.ofList [.terminal "a", .empty,
    .branch "S" (.ofList [.branch "A" (.ofList [.branch "N" .nil, .terminal "ab"])])])

theorem parse_tree_nested :
    nested.WellFormed ∧ nested.parse? "aab" = some nestedTree ∧
      (∃ start, nested.start = some start ∧ nestedTree.root = .nonTerminal start ∧
        ∀ depth, (fill nested (nested.tokenise "aab")).derived.length ≤ depth →
          (fill nested (nested.tokenise "aab")).treeWithin? depth (.nonTerminal start) 0
            (nested.tokenise "aab").length = some nestedTree) ∧
      nestedTree.Follows nested ∧
      nestedTree.terminals = nested.tokenise "aab" ∧
      (¬ Token.emptyText ∈ nested.terminals → nestedTree.yield = "aab") :=
  have wellFormed : nested.WellFormed := fault?_eq_none_iff.mp (by decide)
  have parsed : nested.parse? "aab" = some nestedTree := by rfl
  ⟨wellFormed, parsed, parse_tree_exact nested wellFormed "aab" nestedTree parsed⟩

end FormalLanguages.Grammar
