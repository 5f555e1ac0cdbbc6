import FormalLanguages.Proofs.Text.Pieces
import FormalLanguages.Text.Segmentation

namespace FormalLanguages.Text

/-! # The longest symbol first

A text is cut into pieces by one rule. What remains of the text begins with the next piece, and no
other symbol that it begins with is longer; if it begins with no symbol, the next piece is a
character. -/

/-- A prefix is the longest one whether it is measured in characters or in bytes. -/
inductive Takes (symbols : List String) (text piece rest : String) : Prop
  | symbol (whole : text = piece ++ rest) (declared : piece ∈ symbols) (filled : piece ≠ "")
      (longest : ∀ other, other ∈ symbols → other.toList <+: text.toList →
        other.length ≤ piece.length ∧ other.utf8ByteSize ≤ piece.utf8ByteSize)
  | character (whole : text = piece ++ rest) (single : piece.length = 1)
      (foreign : ∀ other, other ∈ symbols → other.toList <+: text.toList → other = "")

/-- A text is cut up piece by piece until nothing remains. -/
inductive Cuts (symbols : List String) : String → List String → Prop
  | nothing : Cuts symbols "" []
  | piece {text piece rest : String} {pieces : List String}
      (takes : Takes symbols text piece rest) (later : Cuts symbols rest pieces) :
      Cuts symbols text (piece :: pieces)

variable {symbols : List String} {text piece rest : String}

/-! ## One piece -/

theorem Takes.whole (takes : Takes symbols text piece rest) : text = piece ++ rest := by
  cases takes <;> assumption

theorem Takes.filled (takes : Takes symbols text piece rest) : piece ≠ "" := by
  cases takes with
  | symbol _ _ filled => exact filled
  | character _ single =>
      rintro rfl
      cases single

theorem Takes.begins (takes : Takes symbols text piece rest) : piece.toList <+: text.toList :=
  ⟨rest.toList, by rw [takes.whole, String.toList_append]⟩

/-- What has been taken is told by its length. -/
theorem Takes.eq_of_length {other after : String} (takes : Takes symbols text piece rest)
    (takesOther : Takes symbols text other after) (same : piece.length = other.length) :
    piece = other ∧ rest = after := by
  have letters := congrArg String.toList (takes.whole.symm.trans takesOther.whole)
  rw [String.toList_append, String.toList_append] at letters
  have parts := List.append_inj letters same
  exact ⟨String.toList_inj.mp parts.1, String.toList_inj.mp parts.2⟩

theorem Takes.unique {other after : String} (takes : Takes symbols text piece rest)
    (takesOther : Takes symbols text other after) : piece = other ∧ rest = after := by
  apply takes.eq_of_length takesOther
  have begins := takes.begins
  have otherBegins := takesOther.begins
  cases takes with
  | symbol _ declared filled longest =>
      cases takesOther with
      | symbol _ otherDeclared _ otherLongest =>
          exact Nat.le_antisymm (otherLongest piece declared begins).1
            (longest other otherDeclared otherBegins).1
      | character _ _ foreign => exact absurd (foreign piece declared begins) filled
  | character _ single foreign =>
      cases takesOther with
      | symbol _ otherDeclared filled =>
          exact absurd (foreign other otherDeclared otherBegins) filled
      | character _ otherSingle => exact single.trans otherSingle.symm

theorem utf8ByteSize_le_of_begins {other : String} (begins : other.toList <+: piece.toList) :
    other.utf8ByteSize ≤ piece.utf8ByteSize := by
  rcases begins with ⟨rest, whole⟩
  have joined : piece = other ++ String.ofList rest := by
    rw [← String.toList_inj, String.toList_append, String.toList_ofList, whole]
  rw [joined, String.utf8ByteSize_append]
  exact Nat.le_add_right _ _

theorem takes_firstPiece (symbols : List String) (head : Char) (tail : List Char) :
    Takes symbols (String.ofList (head :: tail))
      (String.ofList (firstPiece (symbols.map String.toList) head tail).1)
      (String.ofList (firstPiece (symbols.map String.toList) head tail).2) := by
  rw [firstPiece]
  cases found : longestLeading (symbols.map String.toList) (head :: tail) with
  | none =>
      have foreign := longestLeading_eq_none_iff.mp found
      have whole : String.ofList (head :: tail) = String.ofList [head] ++ String.ofList tail := by
        rw [← String.ofList_append, List.singleton_append]
      refine .character whole String.length_ofList fun other declared begins => ?_
      rw [String.toList_ofList] at begins
      exact String.toList_eq_nil_iff.mp (foreign _ (List.mem_map_of_mem declared) begins)
  | some pair =>
      rcases pair with ⟨taken, rest⟩
      have leads := leads_of_longestLeading found
      rcases List.mem_map.mp leads.member with ⟨piece, declared, rfl⟩
      rw [Option.getD_some, String.ofList_toList]
      have whole : String.ofList (head :: tail) = piece ++ String.ofList rest := by
        rw [leads.whole, String.ofList_append, String.ofList_toList]
      refine .symbol whole declared (fun empty => leads.nonempty (by rw [empty]; rfl))
        fun other otherDeclared begins => ?_
      rw [String.toList_ofList] at begins
      have shorter := leads.longest _ (List.mem_map_of_mem otherDeclared) begins
      refine ⟨shorter, utf8ByteSize_le_of_begins ?_⟩
      exact List.prefix_of_prefix_length_le begins ⟨rest, leads.whole.symm⟩ shorter

/-! ## The whole text -/

theorem Cuts.concatenated_eq {pieces : List String} (cuts : Cuts symbols text pieces) :
    concatenated pieces = text := by
  rw [← String.toList_inj, toList_concatenated]
  induction cuts with
  | nothing => rfl
  | piece takes _ induction =>
      rw [List.flatMap_cons, induction, takes.whole, String.toList_append]

theorem Cuts.filled {pieces : List String} (cuts : Cuts symbols text pieces) :
    ∀ piece, piece ∈ pieces → piece ≠ "" := by
  induction cuts with
  | nothing => exact fun _ none => absurd none List.not_mem_nil
  | piece takes _ induction => exact List.forall_mem_cons.mpr ⟨takes.filled, induction⟩

theorem Cuts.unique {pieces others : List String} (cuts : Cuts symbols text pieces)
    (cutsOther : Cuts symbols text others) : pieces = others := by
  have emptied {piece rest : String} (takes : Takes symbols "" piece rest) : False :=
    takes.filled (String.append_eq_empty_iff.mp takes.whole.symm).1
  induction cuts generalizing others with
  | nothing =>
      cases cutsOther with
      | nothing => rfl
      | piece takes => exact (emptied takes).elim
  | piece takes _ induction =>
      cases cutsOther with
      | nothing => exact (emptied takes).elim
      | piece takesOther later =>
          rcases takes.unique takesOther with ⟨rfl, rfl⟩
          rw [induction later]

theorem cuts_segmentsWithin (symbols : List String) {steps : Nat} {text : List Char}
    (enough : text.length ≤ steps) : Cuts symbols (String.ofList text)
      ((segmentsWithin (symbols.map String.toList) steps text).map String.ofList) := by
  induction steps generalizing text with
  | zero =>
      rw [List.length_eq_zero_iff.mp (Nat.le_zero.mp enough)]
      exact .nothing
  | succ steps induction =>
      cases text with
      | nil => exact .nothing
      | cons head tail =>
          rcases firstPiece_whole (symbols.map String.toList) head tail with ⟨nonempty, whole⟩
          have positive := List.length_pos_iff.mpr nonempty
          have lengths := congrArg List.length whole
          rw [List.length_append] at lengths
          rw [segmentsWithin, List.map_cons]
          exact .piece (takes_firstPiece symbols head tail) (induction (by omega))

/-- The pieces are the only ones that follow the rule. -/
theorem cuts_iff {pieces : List String} : Cuts symbols text pieces ↔ pieces = split symbols text := by
  have own : Cuts symbols text (split symbols text) := by
    have cuts := cuts_segmentsWithin symbols (Nat.le_refl text.toList.length)
    rwa [String.ofList_toList] at cuts
  exact ⟨fun cuts => cuts.unique own, fun same => same ▸ own⟩

theorem flatMap_split (symbols : List String) (text : String) :
    (split symbols text).flatMap String.toList = text.toList := by
  rw [← toList_concatenated, (cuts_iff.mpr rfl).concatenated_eq]

/-! ## Symbols are found again -/

/-- A symbol by itself is not cut, as no symbol that begins it is longer. -/
theorem split_of_mem {symbols : List String} {symbol : String} (member : symbol ∈ symbols)
    (nonempty : symbol ≠ "") : split symbols symbol = [symbol] := by
  have takes : Takes symbols symbol symbol "" :=
    .symbol String.append_empty.symm member nonempty fun other _ begins =>
      ⟨begins.length_le, utf8ByteSize_le_of_begins begins⟩
  exact (cuts_iff.mp (.piece takes .nothing)).symm

def Unambiguous (symbols : List (List Char)) : Prop :=
  ∀ symbol, symbol ∈ symbols → symbol ≠ [] → ∀ other, other ∈ symbols → symbol <+: other →
    symbol = other

section Unambiguous

variable (unambiguous : Unambiguous (symbols.map String.toList))

include unambiguous

/-- No other symbol begins the text, but the empty one. -/
theorem takes_of_mem (declared : piece ∈ symbols) (filled : piece ≠ "") (rest : String) :
    Takes symbols (piece ++ rest) piece rest := by
  have begins : piece.toList <+: (piece ++ rest).toList :=
    ⟨rest.toList, String.toList_append.symm⟩
  have inSymbols {other : String} (member : other ∈ symbols) :
      other.toList ∈ symbols.map String.toList := List.mem_map_of_mem member
  have nonempty : piece.toList ≠ [] := fun none => filled (String.toList_eq_nil_iff.mp none)
  refine .symbol rfl declared filled fun other otherDeclared otherBegins => ?_
  have shorter : other.toList <+: piece.toList := by
    rcases List.prefix_or_prefix_of_prefix otherBegins begins with shorter | longer
    · exact shorter
    · have same : piece.toList = other.toList :=
        unambiguous _ (inSymbols declared) nonempty _ (inSymbols otherDeclared) longer
      exact same ▸ List.prefix_refl _
  exact ⟨shorter.length_le, utf8ByteSize_le_of_begins shorter⟩

theorem cuts_concatenated {word : List String}
    (all : ∀ symbol, symbol ∈ word → symbol ∈ symbols ∧ symbol ≠ "") :
    Cuts symbols (concatenated word) word := by
  induction word with
  | nil => exact .nothing
  | cons symbol word induction =>
      rcases List.forall_mem_cons.mp all with ⟨⟨declared, filled⟩, later⟩
      have whole : concatenated (symbol :: word) = symbol ++ concatenated word := by
        rw [← String.toList_inj, String.toList_append, toList_concatenated, toList_concatenated,
          List.flatMap_cons]
      rw [whole]
      exact .piece (takes_of_mem unambiguous declared filled _) (induction later)

end Unambiguous

theorem split_of_flatMap {symbols word : List String}
    (unambiguous : Unambiguous (symbols.map String.toList))
    (all : ∀ symbol, symbol ∈ word → symbol ∈ symbols ∧ symbol ≠ "") {text : String}
    (whole : text.toList = word.flatMap String.toList) : split symbols text = word := by
  have same : concatenated word = text := by
    rw [← String.toList_inj, toList_concatenated, whole]
  exact (cuts_iff.mp (same ▸ cuts_concatenated unambiguous all)).symm

end FormalLanguages.Text
