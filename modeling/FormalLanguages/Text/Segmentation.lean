import FormalLanguages.Text.Pieces

namespace FormalLanguages.Text

/-! A text is cut into the declared symbols of a language by taking the longest
symbol that the rest of the text begins with. A character that begins no symbol
is a piece of its own. The pieces are not empty, and together they are the text. -/

/-- The longest symbol that begins the text, together with what follows it. The
empty symbol is never taken. -/
def longestLeading : (symbols : List (List Char)) → (text : List Char) →
    Option (List Char × List Char)
  | [], _ => none
  | symbol :: symbols, text =>
      let best := longestLeading symbols text
      if symbol.isEmpty then best
      else
        match dropLeading? symbol text, best with
        | none, best => best
        | some rest, none => some (symbol, rest)
        | some rest, some (chosen, after) =>
            if chosen.length < symbol.length then some (symbol, rest) else some (chosen, after)

def firstPiece (symbols : List (List Char)) (head : Char) (tail : List Char) :
    List Char × List Char :=
  (longestLeading symbols (head :: tail)).getD ([head], tail)

/-- The piece taken at each step is not empty, so as many steps as there are
characters are enough. -/
def segmentsWithin (symbols : List (List Char)) : Nat → List Char → List (List Char)
  | 0, _ => []
  | _ + 1, [] => []
  | steps + 1, head :: tail =>
      let (piece, rest) := firstPiece symbols head tail
      piece :: segmentsWithin symbols steps rest

def segments (symbols : List (List Char)) (text : List Char) : List (List Char) :=
  segmentsWithin symbols text.length text

def split (symbols : List String) (text : String) : List String :=
  (segments (symbols.map String.toList) text.toList).map String.ofList

example : split ["a", "ab"] "aba?" = ["ab", "a", "?"] := by decide

/-! ### What is taken -/

/-- A symbol that is taken begins the text, and no longer symbol does. -/
structure Leads (symbols : List (List Char)) (text piece rest : List Char) : Prop where
  member : piece ∈ symbols
  nonempty : piece ≠ []
  whole : text = piece ++ rest
  longest : ∀ symbol, symbol ∈ symbols → symbol <+: text → symbol.length ≤ piece.length

theorem dropLeading?_eq_none_iff {mark text : List Char} :
    dropLeading? mark text = none ↔ ¬ mark <+: text := by
  constructor
  · rintro missing ⟨rest, equal⟩
    rw [dropLeading?_eq_some_iff.mpr equal.symm] at missing
    cases missing
  · intro different
    cases found : dropLeading? mark text with
    | none => rfl
    | some rest => exact absurd ⟨rest, (dropLeading?_eq_some_iff.mp found).symm⟩ different

theorem longestLeading_eq_none_iff {symbols : List (List Char)} {text : List Char} :
    longestLeading symbols text = none ↔
      ∀ symbol, symbol ∈ symbols → symbol <+: text → symbol = [] := by
  induction symbols with
  | nil => simp [longestLeading]
  | cons symbol symbols induction =>
      cases empty : symbol.isEmpty with
      | true => simp [longestLeading, induction, List.isEmpty_iff.mp empty]
      | false =>
          have nonempty : symbol ≠ [] := by simpa using empty
          cases found : dropLeading? symbol text with
          | none =>
              have different := dropLeading?_eq_none_iff.mp found
              simp [longestLeading, empty, found, induction, different]
          | some rest =>
              have leads : symbol <+: text := ⟨rest, (dropLeading?_eq_some_iff.mp found).symm⟩
              have taken : longestLeading (symbol :: symbols) text ≠ none := by
                simp only [longestLeading, empty, found]
                cases longestLeading symbols text with
                | none => simp
                | some best => simp only [Bool.false_eq_true, if_false]; split <;> simp
              refine iff_of_false taken fun all => nonempty ?_
              exact all symbol List.mem_cons_self leads

theorem leads_of_longestLeading {symbols : List (List Char)} {text piece rest : List Char}
    (found : longestLeading symbols text = some (piece, rest)) :
    Leads symbols text piece rest := by
  induction symbols generalizing piece rest with
  | nil => cases found
  | cons symbol symbols induction =>
      have later : ∀ {chosen after : List Char},
          longestLeading symbols text = some (chosen, after) →
          (symbol <+: text → symbol.length ≤ chosen.length) →
          Leads (symbol :: symbols) text chosen after := by
        intro chosen after best bounded
        have leads := induction best
        refine ⟨List.mem_cons_of_mem _ leads.member, leads.nonempty, leads.whole, ?_⟩
        intro other member begins
        rcases List.mem_cons.mp member with equal | member
        · exact equal ▸ bounded (equal ▸ begins)
        · exact leads.longest other member begins
      rw [longestLeading] at found
      cases empty : symbol.isEmpty with
      | true =>
          rw [empty, if_pos rfl] at found
          exact later found fun _ => by simp [List.isEmpty_iff.mp empty]
      | false =>
          have nonempty : symbol ≠ [] := by simpa using empty
          simp only [empty, Bool.false_eq_true, if_false] at found
          cases dropped : dropLeading? symbol text with
          | none =>
              rw [dropped] at found
              exact later found fun begins => absurd begins (dropLeading?_eq_none_iff.mp dropped)
          | some remaining =>
              have whole := dropLeading?_eq_some_iff.mp dropped
              rw [dropped] at found
              have own :
                  (∀ other, other ∈ symbols → other <+: text → other.length ≤ symbol.length) →
                  Leads (symbol :: symbols) text symbol remaining := by
                intro bounded
                refine ⟨List.mem_cons_self, nonempty, whole, fun other member begins => ?_⟩
                rcases List.mem_cons.mp member with equal | member
                · exact equal ▸ Nat.le_refl _
                · exact bounded other member begins
              cases best : longestLeading symbols text with
              | none =>
                  rw [best] at found
                  cases found
                  refine own fun other member begins => ?_
                  simp [longestLeading_eq_none_iff.mp best other member begins]
              | some pair =>
                  rcases pair with ⟨chosen, after⟩
                  simp only [best] at found
                  split at found
                  case isTrue shorter =>
                      cases found
                      refine own fun other member begins => ?_
                      exact Nat.le_of_lt (Nat.lt_of_le_of_lt
                        ((induction best).longest other member begins) shorter)
                  case isFalse bounded =>
                      cases found
                      exact later best fun _ => Nat.le_of_not_lt bounded

theorem firstPiece_whole (symbols : List (List Char)) (head : Char) (tail : List Char) :
    (firstPiece symbols head tail).1 ≠ [] ∧
      head :: tail = (firstPiece symbols head tail).1 ++ (firstPiece symbols head tail).2 := by
  rw [firstPiece]
  cases found : longestLeading symbols (head :: tail) with
  | none => exact ⟨List.cons_ne_nil head [], rfl⟩
  | some pair =>
      have leads := leads_of_longestLeading found
      exact ⟨leads.nonempty, leads.whole⟩

end FormalLanguages.Text
