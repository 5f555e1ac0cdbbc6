import FormalLanguages.Proofs.Grammar.LineFormat.Printing

namespace FormalLanguages.Grammar

/-! # Grammars that come back from their lines

A grammar that was read declares what its productions mention and nothing else, so a line
for each head says all there is to say. Only the empty tokens are lost: they are not written,
and an alternative that holds nothing else is read as the empty one. -/

variable {grammar : Grammar} {lines : List Line} {head : String} {token : Token}

/-! ## The same grammars -/

theorem get?_productions (grammar : Grammar) (head : String) : grammar.productions.get? head =
    if head ∈ grammar.productions then some (grammar.alternatives head) else none := by
  split
  case isTrue given =>
    rcases mem_heads_iff.mp given with ⟨alternatives, found⟩
    rw [Grammar.alternatives, found]
    rfl
  case isFalse foreign =>
    apply Option.eq_none_iff_forall_ne_some.mpr
    exact fun alternatives found => foreign (mem_heads_iff.mpr ⟨alternatives, found⟩)

theorem same_of {left right : Grammar}
    (tokens : ∀ token, left.Declares token ↔ right.Declares token)
    (heads : ∀ head, head ∈ left.productions ↔ head ∈ right.productions)
    (alternatives : ∀ head, left.alternatives head = right.alternatives head)
    (start : left.start = right.start) : left.same right = true := by
  have productions : ∀ head, left.productions.get? head = right.productions.get? head :=
    fun head => by simp only [get?_productions, heads, alternatives]
  simp only [same, Bool.and_eq_true, DeclaredSet.sameMembers_iff, DeclaredMap.sameEntries_iff,
    decide_eq_true_eq]
  exact ⟨⟨⟨fun name => tokens (.nonTerminal name), fun name => tokens (.terminal name)⟩,
    productions⟩, start⟩

/-! ## Nothing but what the productions mention -/

def Mentions (grammar : Grammar) (token : Token) : Prop :=
  ∃ head, head ∈ grammar.productions ∧ (Line.mk head (grammar.alternatives head)).Mentions token

/-- Every head has an alternative, every alternative has a token, and what is declared is
mentioned. -/
structure Compact (grammar : Grammar) : Prop where
  heads : ∀ head, head ∈ grammar.productions → grammar.alternatives head ≠ []
  alternatives : ∀ head alternative, alternative ∈ grammar.alternatives head → alternative ≠ []
  tokens : ∀ token, grammar.Declares token ↔ grammar.Mentions token ∨ token = .empty

theorem mentions_ofLines (filled : ∀ line, line ∈ lines → line.alternatives ≠ []) :
    (ofLines lines).Mentions token ↔ ∃ line, line ∈ lines ∧ line.Mentions token := by
  constructor
  · rintro ⟨head, given, rfl | ⟨alternative, member, inside⟩⟩
    · rcases mem_productions_ofLines.mp given with ⟨line, listed, same, _⟩
      exact ⟨line, listed, .inl (congrArg _ same)⟩
    · rcases mem_alternatives_ofLines.mp member with ⟨line, listed, _, own⟩
      exact ⟨line, listed, .inr ⟨alternative, own, inside⟩⟩
  · rintro ⟨line, listed, mentions⟩
    refine ⟨line.head, mem_productions_ofLines.mpr ⟨line, listed, rfl, filled line listed⟩,
      mentions.imp_right ?_⟩
    rintro ⟨alternative, own, inside⟩
    exact ⟨alternative, mem_alternatives_ofLines.mpr ⟨line, listed, rfl, own⟩, inside⟩

theorem compact_ofLines (filled : ∀ line, line ∈ lines → line.alternatives ≠ [] ∧
    ∀ alternative, alternative ∈ line.alternatives → alternative ≠ []) :
    (ofLines lines).Compact := by
  refine ⟨fun head given none => ?_, fun head alternative member => ?_, fun token => ?_⟩
  · rcases mem_productions_ofLines.mp given with ⟨line, listed, same, some⟩
    rcases List.exists_mem_of_ne_nil _ some with ⟨alternative, own⟩
    have member := mem_alternatives_ofLines.mpr ⟨line, listed, same.symm, own⟩
    exact absurd (none ▸ member) List.not_mem_nil
  · rcases mem_alternatives_ofLines.mp member with ⟨line, listed, _, own⟩
    exact (filled line listed).2 alternative own
  · rw [declares_ofLines, mentions_ofLines fun line listed => (filled line listed).1]

theorem compact_of_parse {text : String} (read : parse text = .ok grammar) : grammar.Compact := by
  rcases parse_eq_ok_iff.mp read with ⟨lines, each, rfl⟩
  apply compact_ofLines
  intro line member
  rcases exists_item each member with ⟨numbered, _, read⟩
  exact ⟨(legible_of_parseLine read).filled, fun _ inside => (legible_of_mem_parseLine read inside).1⟩

/-! ## Without the empty tokens -/

/-- The empty tokens are deleted from every alternative, and where nothing is left, there
is one. -/
def respell (grammar : Grammar) : Grammar :=
  { grammar with productions := grammar.productions.mapValues fun _ => List.map respelled }

theorem alternatives_respell (grammar : Grammar) (head : String) :
    grammar.respell.alternatives head = (grammar.alternatives head).map respelled := by
  rw [alternatives, alternatives, respell, DeclaredMap.get?_mapValues]
  cases grammar.productions.get? head <;> rfl

theorem declares_respell : grammar.respell.Declares token ↔ grammar.Declares token := by
  cases token <;> rfl

theorem mem_respelled {alternative : Alternative} (filled : token ≠ .empty) :
    token ∈ respelled alternative ↔ token ∈ alternative := by
  have kept : token ∈ alternative.filter (· ≠ .empty) ↔ token ∈ alternative := by
    rw [List.mem_filter, and_iff_left (decide_eq_true filled)]
  rw [respelled]
  split
  case isTrue none =>
    rw [List.isEmpty_iff.mp none] at kept
    exact iff_of_false (fun only => filled (List.mem_singleton.mp only))
      fun inside => List.not_mem_nil (kept.mpr inside)
  case isFalse => exact kept

theorem respelled_ne_nil (alternative : Alternative) : respelled alternative ≠ [] := by
  rw [respelled]
  split
  case isTrue => exact List.cons_ne_nil _ _
  case isFalse some => exact fun none => some (List.isEmpty_iff.mpr none)

theorem respelled_eq_self {alternative : Alternative} (filled : alternative ≠ [])
    (plain : alternative = [.empty] ∨ .empty ∉ alternative) : respelled alternative = alternative := by
  rcases plain with rfl | free
  · rfl
  · have kept : alternative.filter (· ≠ .empty) = alternative :=
      List.filter_eq_self.mpr fun token inside => decide_eq_true fun same => free (same ▸ inside)
    rw [respelled, kept, if_neg fun none => filled (List.isEmpty_iff.mp none)]

theorem respelledAll_ne_nil (alternatives : List Alternative) : respelledAll alternatives ≠ [] := by
  rw [respelledAll]
  split
  case isTrue => exact List.cons_ne_nil _ _
  case isFalse some => exact fun none => some (List.isEmpty_iff.mpr (List.map_eq_nil_iff.mp none))

theorem ne_nil_of_mem_respelledAll {alternatives : List Alternative} {alternative : Alternative}
    (member : alternative ∈ respelledAll alternatives) : alternative ≠ [] := by
  rw [respelledAll] at member
  split at member
  case isTrue => exact List.mem_singleton.mp member ▸ List.cons_ne_nil _ _
  case isFalse =>
    rcases List.mem_map.mp member with ⟨before, _, rfl⟩
    exact respelled_ne_nil before

/-! ## What is read back -/

theorem mem_productions_reread : head ∈ grammar.reread.productions ↔ head ∈ grammar.productions := by
  rw [reread, mem_productions_ofLines, ← mem_headsStartFirst]
  constructor
  · rintro ⟨line, listed, rfl, _⟩
    rcases List.mem_map.mp listed with ⟨head, given, rfl⟩
    exact given
  · exact fun given => ⟨_, List.mem_map_of_mem given, rfl, respelledAll_ne_nil _⟩

theorem compact_reread (grammar : Grammar) : grammar.reread.Compact := by
  apply compact_ofLines
  intro line listed
  rcases List.mem_map.mp listed with ⟨head, _, rfl⟩
  exact ⟨respelledAll_ne_nil _, fun _ => ne_nil_of_mem_respelledAll⟩

namespace Compact

variable (compact : grammar.Compact)

include compact

theorem alternatives_reread (head : String) :
    grammar.reread.alternatives head = (grammar.alternatives head).map respelled := by
  rw [Grammar.alternatives_reread]
  split
  case isTrue given =>
    rw [respelledAll, if_neg fun none => compact.heads head given (List.isEmpty_iff.mp none)]
  case isFalse foreign => rw [alternatives_eq_nil foreign, List.map_nil]

theorem mentions_reread (filled : token ≠ .empty) :
    grammar.reread.Mentions token ↔ grammar.Mentions token := by
  refine exists_congr fun head => and_congr mem_productions_reread (or_congr_right ?_)
  simp only [compact.alternatives_reread, List.mem_map, exists_exists_and_eq_and,
    mem_respelled filled]

theorem declares_reread : grammar.reread.Declares token ↔ grammar.Declares token := by
  rw [(compact_reread grammar).tokens, compact.tokens]
  by_cases filled : token = .empty
  · exact iff_of_true (.inr filled) (.inr filled)
  · exact or_congr_left (compact.mentions_reread filled)

theorem same_reread (start : grammar.reread.start = grammar.start) :
    grammar.reread.same grammar.respell = true := by
  refine same_of (fun token => ?_) (fun head => ?_) (fun head => ?_) start
  · exact compact.declares_reread.trans declares_respell.symm
  · exact mem_productions_reread.trans DeclaredMap.mem_mapValues.symm
  · exact (compact.alternatives_reread head).trans (alternatives_respell grammar head).symm

theorem respell_eq_self (plain : ∀ head alternative, alternative ∈ grammar.alternatives head →
    alternative = [.empty] ∨ .empty ∉ alternative) : grammar.respell = grammar := by
  have same : ∀ head alternatives, grammar.productions.get? head = some alternatives →
      alternatives.map respelled = alternatives := by
    intro head alternatives found
    refine (List.map_congr_left fun alternative inside => ?_).trans (List.map_id _)
    have member := mem_alternatives_iff.mpr ⟨alternatives, found, inside⟩
    exact respelled_eq_self (compact.alternatives head alternative member)
      (plain head alternative member)
  rw [respell, DeclaredMap.mapValues_eq_self same]

end Compact

section Read

variable (read : grammar.Read)

include read

theorem Read.parse_printed : parse grammar.print = .ok grammar.reread :=
  parse_print
    (fun head given => read.legible (.nonTerminal head) (read.wellFormed.heads head given))
    fun _ _ member token inside => read.legible token (read.wellFormed.token_declared member inside)

theorem Read.start_printed : grammar.reread.start = grammar.start := by
  rcases read.started with rfl | ⟨start, isStart, given⟩
  · rfl
  · rw [isStart, start_reread isStart given]

end Read

/-- The printed lines of a grammar that was read are read back as the same grammar without its
empty tokens, and so as the same grammar if the empty token only stands alone. -/
theorem reread_printed_grammar {text : String} {grammar : Grammar}
    (read : parse text = .ok grammar) : ∃ back,
      parse grammar.print = .ok back ∧ back.same grammar.respell = true ∧
      ((∀ head alternative, alternative ∈ grammar.alternatives head →
          alternative = [.empty] ∨ .empty ∉ alternative) →
        back.same grammar = true) := by
  have compact := compact_of_parse read
  have read := read_of_parse read
  have same := compact.same_reread read.start_printed
  refine ⟨grammar.reread, read.parse_printed, same, fun plain => ?_⟩
  rwa [compact.respell_eq_self plain] at same

/-- Two lines for `S`, an empty token within an alternative, and arrows among the terminals. -/
def scattered : Grammar where
  nonTerminals := DeclaredSet.ofList ["S", "A₁"]
  terminals := DeclaredSet.ofList ["a", "-", ">", "b", "→"]
  productions := DeclaredMap.ofList
    [("S", [[.terminal "a", .empty, .nonTerminal "A₁"], [.empty], [.terminal "→"]]),
      ("A₁", [[.terminal "-", .terminal ">"], [.terminal "b"]])]
  start := some "S"

/-- The same without the empty token, declared in another order. -/
def gathered : Grammar where
  nonTerminals := DeclaredSet.ofList ["S", "A₁"]
  terminals := DeclaredSet.ofList ["a", "→", "-", ">", "b"]
  productions := DeclaredMap.ofList
    [("S", [[.terminal "a", .nonTerminal "A₁"], [.empty], [.terminal "→"]]),
      ("A₁", [[.terminal "-", .terminal ">"], [.terminal "b"]])]
  start := some "S"

theorem reread_printed_grammar_scattered :
    parse "S->aεA₁|\nA₁→->|b\nS→→" = .ok scattered ∧
      scattered.print = "S→aA₁||→\nA₁→->|b\n" ∧
      gathered.same scattered = false ∧ gathered.same scattered.respell = true ∧
      parse scattered.print = .ok gathered ∧
      ∃ back, parse gathered.print = .ok back ∧ back.same gathered = true := by
  have read : parse "S->aεA₁|\nA₁→->|b\nS→→" = .ok scattered := by decide
  have again : parse scattered.print = .ok gathered := by decide
  have plain : ∀ production, production ∈ gathered.productions.entries →
      ∀ alternative, alternative ∈ production.2 →
        alternative = [.empty] ∨ .empty ∉ alternative := by decide
  rcases reread_printed_grammar read with ⟨first, reads, respelled, _⟩
  rcases reread_printed_grammar again with ⟨back, readsAgain, _, same⟩
  cases Except.ok.inj (again.symm.trans reads)
  refine ⟨read, by decide, by decide, respelled, again, back, readsAgain, same ?_⟩
  intro head alternative member
  rcases mem_alternatives_iff.mp member with ⟨alternatives, found, inside⟩
  exact plain _ (DeclaredMap.get?_eq_some_iff.mp found) alternative inside

end FormalLanguages.Grammar
