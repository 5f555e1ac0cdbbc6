import FormalLanguages.Grammar.LineFormat
import FormalLanguages.Proofs.Collection.Results
import FormalLanguages.Proofs.Grammar.Passes
import FormalLanguages.Proofs.Text.Characters
import FormalLanguages.Proofs.Text.Pieces

namespace FormalLanguages.Grammar

/-! # Grammars that are read from lines

Whatever is read is well-formed, and its symbols are such that they can be written down:
a non-terminal is a capital with its marks, and a terminal is one character. -/

/-! ## Tokens -/

theorem not_uppercase_of_isMark {character : Char} (mark : isMark character = true) :
    Text.isUppercase character = false ∧ Text.isBlank character = false ∧ character ≠ bar := by
  have codes : character.toNat ∈ 0x27 :: 0x2032 :: List.range' 0x2080 10 := by
    simp only [isMark, Bool.or_eq_true, decide_eq_true_eq] at mark
    rcases mark with (subscript | rfl) | rfl
    · exact List.mem_cons_of_mem _ (List.mem_cons_of_mem _ (Text.code_of_isSubscript subscript))
    · decide
    · decide
  apply Text.of_code codes
  decide

structure IsTerminal (letter : Char) : Prop where
  solid : Text.isBlank letter = false
  small : Text.isUppercase letter = false
  unmarked : isMark letter = false
  filled : letter ≠ 'ε'
  within : letter ≠ bar

/-- The tokens that can be written down. -/
def LegibleToken : Token → Prop
  | .nonTerminal name => isNonTerminalName name.toList = true
  | .terminal name => ∃ letter : Char, name = letter.toString ∧ IsTerminal letter
  | .empty => True

theorem isNonTerminalName_iff {text : List Char} : isNonTerminalName text = true ↔
    ∃ head marks, text = head :: marks ∧ Text.isUppercase head = true ∧
      ∀ mark, mark ∈ marks → isMark mark = true := by
  cases text with
  | nil => simp [isNonTerminalName]
  | cons head marks => simp [isNonTerminalName]

/-! ## What is read is legible -/

theorem legible_of_tokenOfChunk {line : Nat} {chunk : Text.Chunk} {token : Token}
    (proper : chunk.Proper isMark) (solid : Text.isBlank chunk.head = false)
    (within : chunk.head ≠ bar) (read : tokenOfChunk line chunk = .ok token) :
    LegibleToken token := by
  rw [tokenOfChunk] at read
  split at read
  case isTrue capital =>
    cases read
    rw [LegibleToken, String.toList_ofList]
    exact isNonTerminalName_iff.mpr ⟨_, _, rfl, capital, proper.2⟩
  case isFalse small =>
    split at read
    case h_1 => cases read
    case h_2 =>
      split at read
      case isTrue =>
        cases read
        trivial
      case isFalse filled =>
        cases read
        exact ⟨chunk.head, rfl, solid, Bool.eq_false_iff.mpr small, proper.1, filled, within⟩

theorem legible_of_parseAlternative {line : Nat} {text : List Char} {alternative : Alternative}
    (within : ∀ character, character ∈ text → character ≠ bar)
    (read : parseAlternative line text = .ok alternative) :
    alternative ≠ [] ∧ ∀ token, token ∈ alternative → LegibleToken token := by
  rw [parseAlternative] at read
  split at read
  case h_1 => cases read
  case h_2 =>
    rcases bind_eq_ok_iff.mp read with ⟨tokens, each, same⟩
    have legible : ∀ token, token ∈ tokens → LegibleToken token := by
      intro token inside
      rcases exists_item (mapM_eq_ok_iff.mp each) inside with ⟨chunk, member, read⟩
      have present := Text.mem_of_mem_chunks member List.mem_cons_self
      exact legible_of_tokenOfChunk ((Text.proper_chunks _).2 chunk member)
        (Text.not_isBlank_of_mem_withoutBlanks present)
        (within _ (List.mem_filter.mp present).1) read
    cases same
    cases tokens with
    | nil => exact ⟨List.cons_ne_nil _ _, fun token only => List.mem_singleton.mp only ▸ trivial⟩
    | cons token rest => exact ⟨List.cons_ne_nil _ _, legible⟩

structure Line.Legible (line : Line) : Prop where
  head : LegibleToken (.nonTerminal line.head)
  filled : line.alternatives ≠ []
  tokens : ∀ alternative, alternative ∈ line.alternatives → ∀ token, token ∈ alternative →
    LegibleToken token

theorem pieces_of_parseLine {number : Nat} {text : List Char} {line : Line}
    (read : parseLine number text = .ok line) :
    isNonTerminalName line.head.toList = true ∧ ∃ body, List.Forall₂
      (fun piece alternative => parseAlternative number piece = .ok alternative)
      (Text.splitWhere (· = bar) body) line.alternatives := by
  rw [parseLine] at read
  split at read
  case h_1 => cases read
  case h_2 left body _ =>
    dsimp only at read
    split at read
    case isFalse => cases read
    case isTrue named =>
      rcases bind_eq_ok_iff.mp read with ⟨alternatives, each, same⟩
      cases same
      refine ⟨?_, body, mapM_eq_ok_iff.mp each⟩
      rwa [String.toList_ofList]

theorem legible_of_mem_parseLine {number : Nat} {text : List Char} {line : Line}
    (read : parseLine number text = .ok line) {alternative : Alternative}
    (inside : alternative ∈ line.alternatives) :
    alternative ≠ [] ∧ ∀ token, token ∈ alternative → LegibleToken token := by
  rcases (pieces_of_parseLine read).2 with ⟨body, pieces⟩
  rcases exists_item pieces inside with ⟨piece, member, read⟩
  refine legible_of_parseAlternative (fun character present => ?_) read
  exact of_decide_eq_false (Text.not_separator_of_mem_splitWhere member present)

theorem legible_of_parseLine {number : Nat} {text : List Char} {line : Line}
    (read : parseLine number text = .ok line) : line.Legible := by
  rcases pieces_of_parseLine read with ⟨named, body, pieces⟩
  refine ⟨named, ?_, fun alternative inside => (legible_of_mem_parseLine read inside).2⟩
  intro none
  exact Text.splitWhere_ne_nil _ _ (List.forall₂_nil_right_iff.mp (none ▸ pieces))

/-! ## Lines add up -/

def Line.Mentions (line : Line) (token : Token) : Prop :=
  token = .nonTerminal line.head ∨
    ∃ alternative, alternative ∈ line.alternatives ∧ token ∈ alternative

section Lines

variable {grammar : Grammar} {head other : String} {token : Token}

theorem declares_declareToken {declared : Token} :
    (declareToken grammar declared).Declares token ↔ token = declared ∨ grammar.Declares token := by
  cases declared with
  | nonTerminal name =>
      cases token with
      | nonTerminal other => simpa [Declares, declareToken] using mem_addNonTerminal
      | terminal | empty => simp [Declares, declareToken, addNonTerminal]
  | terminal name =>
      cases token with
      | terminal other => simp [Declares, declareToken, addTerminal]
      | nonTerminal | empty => simp [Declares, declareToken, addTerminal]
  | empty =>
      refine (or_iff_right_of_imp fun same => ?_).symm
      rw [same]
      trivial

theorem declares_addParsed {alternative : Alternative} :
    (addParsed head grammar alternative).Declares token ↔
      token ∈ alternative ∨ grammar.Declares token := by
  have folded := foldl_iff (fun grammar : Grammar => grammar.Declares token)
    (fun declared => token = declared) (fun _ _ => declares_declareToken) alternative grammar
  simp only [exists_eq_right'] at folded
  rw [← folded]
  cases token <;> rfl

theorem declares_addLine {line : Line} :
    (addLine grammar line).Declares token ↔ line.Mentions token ∨ grammar.Declares token := by
  rw [Line.Mentions, or_assoc, or_left_comm]
  refine (foldl_iff (fun grammar : Grammar => grammar.Declares token)
    (fun alternative => token ∈ alternative) (fun _ _ => declares_addParsed) line.alternatives
    _).trans (or_congr_right ?_)
  have started : (declareToken grammar (.nonTerminal line.head)).Declares token ↔ _ :=
    declares_declareToken
  rw [← started]
  cases token <;> rfl

theorem productions_foldl_declareToken (grammar : Grammar) (tokens : List Token) :
    (tokens.foldl declareToken grammar).productions = grammar.productions :=
  foldl_keeps Grammar.productions (fun _ token => by cases token <;> rfl) tokens grammar

theorem start_addParsed (head : String) (grammar : Grammar) (alternative : Alternative) :
    (addParsed head grammar alternative).start = grammar.start :=
  foldl_keeps Grammar.start (fun _ token => by cases token <;> rfl) alternative grammar

theorem alternatives_addParsed {alternative : Alternative} :
    (addParsed head grammar alternative).alternatives other =
      grammar.alternatives other ++ if head = other then [alternative] else [] := by
  have same : ∀ name, (alternative.foldl declareToken grammar).alternatives name =
      grammar.alternatives name := fun name => by
    rw [Grammar.alternatives, productions_foldl_declareToken, Grammar.alternatives]
  rw [addParsed, alternatives_addAlternative, same, same]
  split
  case isTrue own => rw [own]
  case isFalse => rw [List.append_nil]

theorem mem_productions_addParsed {alternative : Alternative} :
    other ∈ (addParsed head grammar alternative).productions ↔
      other = head ∨ other ∈ grammar.productions := by
  rw [addParsed, addAlternative, mem_setAlternatives, productions_foldl_declareToken]

theorem alternatives_addLine (line : Line) : (addLine grammar line).alternatives other =
    grammar.alternatives other ++ if line.head = other then line.alternatives else [] := by
  have folded : ∀ (alternatives : List Alternative) (grammar : Grammar),
      (alternatives.foldl (addParsed line.head) grammar).alternatives other =
        grammar.alternatives other ++ if line.head = other then alternatives else [] := by
    intro alternatives
    induction alternatives with
    | nil => simp
    | cons first rest induction =>
        intro grammar
        rw [List.foldl_cons, induction, alternatives_addParsed, List.append_assoc]
        split <;> rfl
  exact folded line.alternatives _

theorem mem_productions_addLine {line : Line} : other ∈ (addLine grammar line).productions ↔
    (other = line.head ∧ line.alternatives ≠ []) ∨ other ∈ grammar.productions := by
  refine (foldl_iff (fun grammar : Grammar => other ∈ grammar.productions)
    (fun _ => other = line.head) (fun _ _ => mem_productions_addParsed) line.alternatives
    _).trans (or_congr_left ?_)
  rw [exists_and_right, and_comm, Ne, List.eq_nil_iff_forall_not_mem, Classical.not_forall_not]

theorem start_addLine (grammar : Grammar) (line : Line) :
    (addLine grammar line).start = grammar.start.or (some line.head) :=
  foldl_keeps Grammar.start (start_addParsed line.head) line.alternatives _

end Lines

/-! ## The grammar of all lines -/

def ofLines (lines : List Line) : Grammar := lines.foldl addLine blank

theorem parse_eq_ok_iff {text : String} {grammar : Grammar} :
    parse text = .ok grammar ↔ ∃ lines, List.Forall₂
      (fun numbered line => parseLine numbered.1 numbered.2 = .ok line)
      (Text.numberedLines Text.trim text) lines ∧ ofLines lines = grammar := by
  rw [parse, bind_eq_ok_iff]
  simp only [mapM_eq_ok_iff]
  exact exists_congr fun _ => and_congr_right fun _ => ⟨Except.ok.inj, congrArg _⟩

section OfLines

variable {lines : List Line} {head : String}

theorem declares_ofLines {token : Token} : (ofLines lines).Declares token ↔
    (∃ line, line ∈ lines ∧ line.Mentions token) ∨ token = .empty := by
  refine (foldl_iff (fun grammar : Grammar => grammar.Declares token)
    (fun line => line.Mentions token) (fun _ _ => declares_addLine) lines blank).trans
    (or_congr_right ?_)
  cases token <;> simp [Declares, blank]

theorem alternatives_ofLines : (ofLines lines).alternatives head =
    lines.flatMap fun line => if line.head = head then line.alternatives else [] := by
  have folded : ∀ (lines : List Line) (grammar : Grammar),
      (lines.foldl addLine grammar).alternatives head = grammar.alternatives head ++
        lines.flatMap fun line => if line.head = head then line.alternatives else [] := by
    intro lines
    induction lines with
    | nil => simp
    | cons line rest induction =>
        intro grammar
        rw [List.foldl_cons, induction, alternatives_addLine, List.append_assoc,
          List.flatMap_cons]
  exact folded lines blank

theorem mem_alternatives_ofLines {alternative : Alternative} :
    alternative ∈ (ofLines lines).alternatives head ↔
      ∃ line, line ∈ lines ∧ line.head = head ∧ alternative ∈ line.alternatives := by
  rw [alternatives_ofLines, List.mem_flatMap]
  refine exists_congr fun line => and_congr_right fun _ => ?_
  split
  case isTrue own => exact (and_iff_right own).symm
  case isFalse foreign => exact iff_of_false List.not_mem_nil fun both => foreign both.1

theorem mem_productions_ofLines : head ∈ (ofLines lines).productions ↔
    ∃ line, line ∈ lines ∧ head = line.head ∧ line.alternatives ≠ [] :=
  (foldl_iff (fun grammar : Grammar => head ∈ grammar.productions)
    (fun line => head = line.head ∧ line.alternatives ≠ [])
    (fun _ _ => mem_productions_addLine) lines blank).trans (or_iff_left List.not_mem_nil)

/-- The head of the first line is the start symbol. -/
theorem start_ofLines (lines : List Line) : (ofLines lines).start = lines.head?.map Line.head := by
  have folded : ∀ (lines : List Line) (grammar : Grammar),
      (lines.foldl addLine grammar).start = grammar.start.or (lines.head?.map Line.head) := by
    intro lines
    induction lines with
    | nil => simp
    | cons line rest induction =>
        intro grammar
        rw [List.foldl_cons, induction, start_addLine, Option.or_assoc]
        rfl
  exact folded lines blank

theorem wellFormed_ofLines : (ofLines lines).WellFormed := by
  have declared : ∀ line, line ∈ lines → line.head ∈ (ofLines lines).nonTerminals :=
    fun line member => declares_ofLines.mpr (.inl ⟨line, member, .inl rfl⟩)
  refine .of_alternatives (fun head inside => ?_) (fun head alternative inside token member => ?_)
    (fun start isStart => ?_)
  · rcases mem_productions_ofLines.mp inside with ⟨line, member, rfl, _⟩
    exact declared line member
  · rcases mem_alternatives_ofLines.mp inside with ⟨line, ofLine, _, own⟩
    exact declares_ofLines.mpr (.inl ⟨line, ofLine, .inr ⟨_, own, member⟩⟩)
  · rw [start_ofLines] at isStart
    rcases Option.map_eq_some_iff.mp isStart with ⟨line, first, rfl⟩
    exact declared line (List.mem_of_head? first)

theorem legible_ofLines (legible : ∀ line, line ∈ lines → line.Legible) {token : Token}
    (declared : (ofLines lines).Declares token) : LegibleToken token := by
  rcases declares_ofLines.mp declared with ⟨line, member, rfl | ⟨alternative, inside, own⟩⟩ | rfl
  · exact (legible line member).head
  · exact (legible line member).tokens alternative inside token own
  · trivial

end OfLines

/-! ## Whatever is read -/

structure Read (grammar : Grammar) : Prop where
  wellFormed : grammar.WellFormed
  legible : ∀ token, grammar.Declares token → LegibleToken token
  started : grammar = blank ∨ ∃ start, grammar.start = some start ∧ start ∈ grammar.productions

theorem read_of_parse {text : String} {grammar : Grammar} (read : parse text = .ok grammar) :
    grammar.Read := by
  rcases parse_eq_ok_iff.mp read with ⟨lines, each, rfl⟩
  have legible : ∀ line, line ∈ lines → line.Legible := by
    intro line member
    rcases exists_item each member with ⟨numbered, _, read⟩
    exact legible_of_parseLine read
  refine ⟨wellFormed_ofLines, fun _ => legible_ofLines legible, ?_⟩
  cases lines with
  | nil => exact .inl rfl
  | cons line rest =>
      have filled := (legible line List.mem_cons_self).filled
      exact .inr ⟨line.head, start_ofLines _,
        mem_productions_ofLines.mpr ⟨line, List.mem_cons_self, rfl, filled⟩⟩

end FormalLanguages.Grammar
