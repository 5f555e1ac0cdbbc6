import FormalLanguages.Proofs.Grammar.LineFormat.Reading

namespace FormalLanguages.Grammar

/-! # Printed grammars are read back

The empty token is not written, and where nothing is written it is read. So every line is
read back as it was, except that a head without alternatives gets an empty one. -/

variable {grammar : Grammar} {alternative : Alternative} {head : String}

/-- The alternative that is read where `alternative` was printed. -/
def respelled (alternative : Alternative) : Alternative :=
  let tokens := alternative.filter (· ≠ .empty)
  if tokens.isEmpty then [.empty] else tokens

def respelledAll (alternatives : List Alternative) : List Alternative :=
  if alternatives.isEmpty then [[.empty]] else alternatives.map respelled

/-! ## Alternatives -/

theorem characters_of_isNonTerminalName {text : List Char} (name : isNonTerminalName text = true)
    {character : Char} (inside : character ∈ text) :
    Text.isBlank character = false ∧ character ≠ bar ∧ character ≠ arrow := by
  rcases isNonTerminalName_iff.mp name with ⟨head, marks, rfl, capital, all⟩
  have differs : ∀ other, Text.isUppercase other = false → head ≠ other := fun other small same =>
    Bool.noConfusion ((same ▸ capital).symm.trans small)
  rcases List.mem_cons.mp inside with rfl | later
  · refine ⟨Bool.eq_false_iff.mpr fun blank => ?_, differs bar (by decide), differs arrow (by decide)⟩
    exact differs character (Text.not_uppercase_of_isBlank blank) rfl
  · rcases not_uppercase_of_isMark (all character later) with ⟨_, solid, within⟩
    exact ⟨solid, within, fun same => absurd (all character later) (same ▸ by decide)⟩

theorem LegibleToken.characters {token : Token} (legible : LegibleToken token)
    (filled : token ≠ .empty) {character : Char} (inside : character ∈ token.text.toList) :
    Text.isBlank character = false ∧ character ≠ bar := by
  cases token with
  | nonTerminal name =>
      rcases characters_of_isNonTerminalName legible inside with ⟨solid, within, _⟩
      exact ⟨solid, within⟩
  | terminal name =>
      rcases legible with ⟨letter, rfl, terminal⟩
      have same : character = letter := by simpa [Token.text] using inside
      rw [same]
      exact ⟨terminal.solid, terminal.within⟩
  | empty => exact absurd rfl filled

theorem LegibleToken.exists_chunk (line : Nat) {token : Token} (legible : LegibleToken token)
    (filled : token ≠ .empty) : ∃ chunk : Text.Chunk, chunk.text = token.text.toList ∧
      chunk.Proper isMark ∧ tokenOfChunk line chunk = .ok token := by
  cases token with
  | nonTerminal name =>
      rcases isNonTerminalName_iff.mp legible with ⟨head, marks, text, capital, all⟩
      have unmarked : isMark head = false := Bool.eq_false_iff.mpr fun mark =>
        Bool.noConfusion (capital.symm.trans (not_uppercase_of_isMark mark).1)
      refine ⟨⟨head, marks⟩, text.symm, ⟨unmarked, all⟩, ?_⟩
      rw [tokenOfChunk, if_pos capital, Text.Chunk.text, ← text, String.ofList_toList]
  | terminal name =>
      rcases legible with ⟨letter, rfl, terminal⟩
      refine ⟨⟨letter, []⟩, by simp [Text.Chunk.text, Token.text],
        ⟨terminal.unmarked, fun _ none => absurd none List.not_mem_nil⟩, ?_⟩
      simp [tokenOfChunk, terminal.small, terminal.filled]
  | empty => exact absurd rfl filled

theorem exists_chunks (line : Nat) {tokens : List Token}
    (legible : ∀ token, token ∈ tokens → LegibleToken token ∧ token ≠ .empty) :
    ∃ cut : List Text.Chunk, cut.flatMap Text.Chunk.text = tokens.flatMap (·.text.toList) ∧
      (∀ chunk, chunk ∈ cut → chunk.Proper isMark) ∧
      cut.mapM (tokenOfChunk line) = .ok tokens := by
  induction tokens with
  | nil => exact ⟨[], rfl, fun _ none => absurd none List.not_mem_nil, rfl⟩
  | cons token rest induction =>
      rcases List.forall_mem_cons.mp legible with ⟨⟨first, filled⟩, later⟩
      rcases first.exists_chunk line filled with ⟨chunk, text, proper, read⟩
      rcases induction later with ⟨cut, texts, all, reads⟩
      refine ⟨chunk :: cut, ?_, List.forall_mem_cons.mpr ⟨proper, all⟩, ?_⟩
      · rw [List.flatMap_cons, List.flatMap_cons, text, texts]
      · exact mapM_eq_ok_iff.mpr (.cons read (mapM_eq_ok_iff.mp reads))

theorem toList_printAlternative (alternative : Alternative) :
    (printAlternative alternative).toList =
      (alternative.filter (· ≠ .empty)).flatMap (·.text.toList) := by
  rw [printAlternative, Text.toList_concatenated, List.flatMap_map]

theorem characters_printAlternative
    (legible : ∀ token, token ∈ alternative → LegibleToken token) {character : Char}
    (inside : character ∈ (printAlternative alternative).toList) :
    Text.isBlank character = false ∧ character ≠ bar := by
  rw [toList_printAlternative] at inside
  rcases List.mem_flatMap.mp inside with ⟨token, member, own⟩
  rcases List.mem_filter.mp member with ⟨listed, filled⟩
  exact (legible token listed).characters (of_decide_eq_true filled) own

theorem parseAlternative_printAlternative (line : Nat)
    (legible : ∀ token, token ∈ alternative → LegibleToken token) :
    parseAlternative line (printAlternative alternative).toList = .ok (respelled alternative) := by
  have solid := Text.withoutBlanks_eq_self fun _ inside =>
    (characters_printAlternative legible inside).1
  have filled : ∀ token, token ∈ alternative.filter (· ≠ .empty) →
      LegibleToken token ∧ token ≠ .empty := fun token member =>
    ⟨legible token (List.mem_filter.mp member).1, of_decide_eq_true (List.mem_filter.mp member).2⟩
  rcases exists_chunks line filled with ⟨cut, text, proper, read⟩
  rw [parseAlternative, solid, toList_printAlternative, ← text, Text.chunks_flatMap_text proper]
  exact bind_eq_ok_iff.mpr ⟨_, read, rfl⟩

/-! ## Lines -/

def alternativeTexts (grammar : Grammar) (head : String) : List (List Char) :=
  (grammar.alternatives head).map fun alternative => (printAlternative alternative).toList

def lineText (grammar : Grammar) (head : String) : List Char :=
  head.toList ++ arrow :: List.intercalate [bar] (grammar.alternativeTexts head)

theorem toList_printLine (grammar : Grammar) (head : String) :
    (printLine grammar head).toList = grammar.lineText head ++ ['\n'] := by
  simp [printLine, lineText, alternativeTexts, Text.toList_joined, Function.comp_def]

def LegibleAt (grammar : Grammar) (head : String) : Prop :=
  ∀ alternative, alternative ∈ grammar.alternatives head → ∀ token, token ∈ alternative →
    LegibleToken token

theorem LegibleAt.characters (legible : grammar.LegibleAt head) {text : List Char}
    (member : text ∈ grammar.alternativeTexts head) {character : Char} (inside : character ∈ text) :
    Text.isBlank character = false ∧ character ≠ bar := by
  rcases List.mem_map.mp member with ⟨alternative, own, rfl⟩
  exact characters_printAlternative (legible alternative own) inside

theorem LegibleAt.mapM_parseAlternative (line : Nat) (legible : grammar.LegibleAt head) :
    (Text.splitWhere (· = bar) (List.intercalate [bar] (grammar.alternativeTexts head))).mapM
      (parseAlternative line) = .ok (respelledAll (grammar.alternatives head)) := by
  by_cases none : grammar.alternatives head = []
  · rw [alternativeTexts, none]
    rfl
  · have some : grammar.alternativeTexts head ≠ [] := fun nil => none (List.map_eq_nil_iff.mp nil)
    rw [Text.splitWhere_intercalate (decide_eq_true rfl) some fun _ member _ inside =>
      decide_eq_false (legible.characters member inside).2]
    have filled : (grammar.alternatives head).isEmpty = false := by simpa using none
    rw [respelledAll, filled, alternativeTexts, mapM_eq_ok_iff, List.forall₂_map_left_iff]
    simp only [Bool.false_eq_true, if_false, List.forall₂_map_right_iff, List.forall₂_same]
    exact fun alternative member => parseAlternative_printAlternative line (legible _ member)

theorem LegibleAt.parseLine_lineText (line : Nat) (name : isNonTerminalName head.toList = true)
    (legible : grammar.LegibleAt head) : parseLine line (grammar.lineText head) =
      .ok ⟨head, respelledAll (grammar.alternatives head)⟩ := by
  have free : arrow ∉ head.toList := fun inside =>
    (characters_of_isNonTerminalName name inside).2.2 rfl
  have solid := Text.withoutBlanks_eq_self fun _ inside =>
    (characters_of_isNonTerminalName name inside).1
  rw [parseLine, cutAtArrow?, lineText, Text.cutAt?_singleton free]
  simp only [Option.orElse_some, solid, name, if_true, String.ofList_toList]
  exact bind_eq_ok_iff.mpr ⟨_, legible.mapM_parseAlternative line, rfl⟩

theorem LegibleAt.characters_lineText (name : isNonTerminalName head.toList = true)
    (legible : grammar.LegibleAt head) {character : Char}
    (inside : character ∈ grammar.lineText head) : Text.isBlank character = false := by
  rcases List.mem_append.mp inside with inHead | afterHead
  · exact (characters_of_isNonTerminalName name inHead).1
  · rcases List.mem_cons.mp afterHead with rfl | inBody
    · decide
    · rcases Text.mem_intercalate inBody with inBar | ⟨text, member, own⟩
      · exact List.mem_singleton.mp inBar ▸ by decide
      · exact (legible.characters member own).1

/-! ## All lines -/

/-- Each head that has a production gets a line. -/
def reread (grammar : Grammar) : Grammar :=
  ofLines (grammar.headsStartFirst.map fun head =>
    ⟨head, respelledAll (grammar.alternatives head)⟩)

theorem headsStartFirst_perm (grammar : Grammar) :
    grammar.headsStartFirst.Perm grammar.productions.keys := List.filter_append_perm ..

theorem mem_headsStartFirst : head ∈ grammar.headsStartFirst ↔ head ∈ grammar.productions :=
  (headsStartFirst_perm grammar).mem_iff

theorem nodup_headsStartFirst : grammar.headsStartFirst.Nodup :=
  (headsStartFirst_perm grammar).nodup_iff.mpr grammar.productions.nodup

theorem head?_headsStartFirst {start : String} (isStart : grammar.start = some start)
    (given : start ∈ grammar.productions) : grammar.headsStartFirst.head? = some start := by
  have only : ∀ head, head ∈ grammar.productions.keys.filter (grammar.start = some ·) →
      head = start := fun head member =>
    Option.some.inj ((of_decide_eq_true (List.mem_filter.mp member).2).symm.trans isStart)
  have inside : start ∈ grammar.productions.keys.filter (grammar.start = some ·) :=
    List.mem_filter.mpr ⟨given, decide_eq_true isStart⟩
  rw [headsStartFirst]
  cases starts : grammar.productions.keys.filter (grammar.start = some ·) with
  | nil => exact absurd (starts ▸ inside) List.not_mem_nil
  | cons first rest =>
      have same : first = start := only first (starts ▸ List.mem_cons_self)
      rw [List.cons_append, List.head?_cons, same]

theorem toList_print (grammar : Grammar) : grammar.print.toList =
    (grammar.headsStartFirst.map grammar.lineText).flatMap (· ++ ['\n']) := by
  rw [print, Text.toList_concatenated, List.flatMap_map, List.flatMap_map]
  exact List.flatMap_congr fun head _ => toList_printLine grammar head

section Legible

variable (names : ∀ head, head ∈ grammar.productions → isNonTerminalName head.toList = true)
  (legible : ∀ head, grammar.LegibleAt head)

include names legible

theorem map_snd_numberedLines_print : (Text.numberedLines Text.trim grammar.print).map Prod.snd =
    grammar.headsStartFirst.map grammar.lineText := by
  have solid : ∀ text, text ∈ grammar.headsStartFirst.map grammar.lineText →
      ∀ character, character ∈ text → Text.isBlank character = false := by
    intro text member character inside
    rcases List.mem_map.mp member with ⟨head, isHead, rfl⟩
    exact (legible head).characters_lineText (names head (mem_headsStartFirst.mp isHead)) inside
  have filled : ∀ text, text ∈ grammar.headsStartFirst.map grammar.lineText →
      (!text.isEmpty) = true := by
    intro text member
    rcases List.mem_map.mp member with ⟨head, _, rfl⟩
    simp [lineText]
  have whole : Text.lines grammar.print.toList =
      grammar.headsStartFirst.map grammar.lineText ++ [[]] := by
    rw [toList_print, Text.lines, Text.splitWhere_flatMap (decide_eq_true rfl)]
    exact fun text member character inside => decide_eq_false fun newline =>
      absurd (solid text member character inside) (newline ▸ by decide)
  have trimmed := List.map_congr_left fun text member => Text.trim_eq_self (solid text member)
  rw [Text.map_snd_numberedLines, whole, List.map_append, trimmed, List.map_id',
    List.filter_append, List.filter_eq_self.mpr filled]
  exact List.append_nil _

theorem parse_print : parse grammar.print = .ok grammar.reread := by
  have each : List.Forall₂ (fun text line => ∀ number, parseLine number text = .ok line)
      (grammar.headsStartFirst.map grammar.lineText)
      (grammar.headsStartFirst.map fun head =>
        ⟨head, respelledAll (grammar.alternatives head)⟩) := by
    rw [List.forall₂_map_left_iff, List.forall₂_map_right_iff, List.forall₂_same]
    exact fun head member number =>
      (legible head).parseLine_lineText number (names head (mem_headsStartFirst.mp member))
  rw [← map_snd_numberedLines_print names legible, List.forall₂_map_left_iff] at each
  exact parse_eq_ok_iff.mpr ⟨_, each.imp fun numbered _ read => read numbered.1, rfl⟩

end Legible

theorem alternatives_reread (grammar : Grammar) (head : String) : grammar.reread.alternatives head =
    if head ∈ grammar.productions then respelledAll (grammar.alternatives head) else [] := by
  have folded : ∀ heads : List String, heads.Nodup → (heads.flatMap fun other =>
      if other = head then respelledAll (grammar.alternatives other) else []) =
        if head ∈ heads then respelledAll (grammar.alternatives head) else [] := by
    intro heads nodup
    induction heads with
    | nil => rfl
    | cons first rest induction =>
        rcases List.nodup_cons.mp nodup with ⟨fresh, later⟩
        rw [List.flatMap_cons, induction later]
        by_cases same : first = head
        · simp [same, same ▸ fresh]
        · simp [same, Ne.symm same]
  rw [reread, alternatives_ofLines, List.flatMap_map, folded _ nodup_headsStartFirst]
  simp only [mem_headsStartFirst]

theorem start_reread {start : String} (isStart : grammar.start = some start)
    (given : start ∈ grammar.productions) : grammar.reread.start = some start := by
  rw [reread, start_ofLines, List.head?_map, head?_headsStartFirst isStart given]
  rfl

end FormalLanguages.Grammar
