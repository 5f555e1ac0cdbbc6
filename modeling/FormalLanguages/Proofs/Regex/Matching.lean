import FormalLanguages.Proofs.Regex.Atoms
import FormalLanguages.Proofs.Regex.Languages
import FormalLanguages.Proofs.Regex.Simplification
import FormalLanguages.Regex.Matching
import FormalLanguages.Text.Segmentation

namespace FormalLanguages.Regex

/-! # What a test of an expression finds

The rests of a text are what follows the pieces that the expression matches, and those
pieces are the words of the expression with each letter spelled out. -/

variable {regex body : Regex} {text rest : List Char}

/-! ## Rests -/

theorem matches_star_append {α : Type} {meaning : Meaning α} {first last : List α}
    (before : Matches meaning (star body) first) (once : Matches meaning body last) :
    Matches meaning (star body) (first ++ last) := by
  rcases Matches.pieces before rfl with ⟨pieces, rfl, all⟩
  have whole : pieces.flatten ++ last = (pieces ++ [last]).flatten := by simp
  rw [whole]
  refine matches_star_flatten fun piece member => ?_
  rcases List.mem_append.mp member with earlier | own
  · exact all piece earlier
  · exact List.mem_singleton.mp own ▸ once

/-- A rest is what follows a piece that the expression matches. -/
def Leaves (regex : Regex) (text rest : List Char) : Prop :=
  ∃ piece, regex.MatchesText piece ∧ text = piece ++ rest

theorem Leaves.sequence {first second : Regex} {middle : List Char} (left : Leaves first text middle)
    (right : Leaves second middle rest) : Leaves (sequence first second) text rest := by
  rcases left with ⟨before, inFirst, rfl⟩
  rcases right with ⟨after, inSecond, rfl⟩
  exact ⟨before ++ after, .sequence inFirst inSecond, (List.append_assoc ..).symm⟩

section Star

variable (exact : ∀ {text rest}, rest ∈ rests body text ↔ Leaves body text rest)

include exact

theorem reachable_rests_iff :
    Reachable (rests body) [text] rest ↔ Leaves (star body) text rest := by
  constructor
  · intro reached
    induction reached with
    | seed member => exact ⟨[], .done, (List.mem_singleton.mp member).symm⟩
    | follow _ member induction =>
        rcases induction with ⟨before, rounds, rfl⟩
        rcases exact.mp member with ⟨after, once, rfl⟩
        exact ⟨before ++ after, matches_star_append rounds once, (List.append_assoc ..).symm⟩
  · rintro ⟨piece, holds, rfl⟩
    rcases Matches.pieces holds rfl with ⟨pieces, rfl, all⟩
    clear holds
    induction pieces using List.reverseRecOn generalizing rest with
    | nil => exact .seed List.mem_cons_self
    | append_singleton before last induction =>
        rw [List.flatten_append, List.flatten_singleton, List.append_assoc]
        have reached : Reachable (rests body) [_] (last ++ rest) :=
          induction fun piece member => all piece (List.mem_append_left _ member)
        have once := all last (List.mem_append_right _ (List.mem_singleton_self last))
        exact .follow reached (exact.mpr ⟨last, once, rfl⟩)

theorem mem_tails_of_reachable (rest : List Char) (reached : Reachable (rests body) [text] rest) :
    rest ∈ text.tails := by
  rcases (reachable_rests_iff exact).mp reached with ⟨piece, _, rfl⟩
  exact (List.mem_tails ..).mpr (List.suffix_append piece rest)

omit exact in
theorem length_tails_le (text : List Char) : text.tails.length ≤ text.length + 1 :=
  Nat.le_of_eq (List.length_tails _)

theorem mem_rests_star_iff : rest ∈ rests (star body) text ↔ Leaves (star body) text rest := by
  rw [rests, mem_longestFirst, Reachable.mem_list_iff (mem_tails_of_reachable exact)
    (length_tails_le text)]
  exact reachable_rests_iff exact

end Star

theorem mem_rests_iff : rest ∈ rests regex text ↔ Leaves regex text rest := by
  induction regex generalizing text rest with
  | empty => exact ⟨nofun, fun ⟨_, holds, _⟩ => nomatch holds⟩
  | nil =>
      rw [rests, List.mem_singleton]
      constructor
      · exact fun same => ⟨[], .nil, same.symm⟩
      · rintro ⟨piece, holds, rfl⟩
        rw [matches_nil_iff.mp holds, List.nil_append]
  | symbol name =>
      rw [rests, Option.mem_toList, Text.dropLeading?_eq_some_iff]
      constructor
      · exact fun same => ⟨name.toList, .symbol rfl, same⟩
      · rintro ⟨piece, holds, rfl⟩
        have same : piece = name.toList := matches_symbol_iff.mp holds
        rw [same]
  | reference name => exact ⟨nofun, fun ⟨_, holds, _⟩ => (matches_reference_iff.mp holds).elim⟩
  | sequence first second inFirst inSecond =>
      rw [rests, mem_longestFirst, List.mem_flatMap]
      constructor
      · rintro ⟨middle, left, right⟩
        exact (inFirst.mp left).sequence (inSecond.mp right)
      · rintro ⟨piece, holds, rfl⟩
        rcases matches_sequence_iff.mp holds with ⟨before, after, left, right, rfl⟩
        rw [List.append_assoc]
        exact ⟨after ++ rest, inFirst.mpr ⟨before, left, rfl⟩, inSecond.mpr ⟨after, right, rfl⟩⟩
  | alternative left right inLeft inRight =>
      rw [rests, mem_longestFirst, List.mem_append, inLeft, inRight]
      constructor
      · rintro (⟨piece, holds, equal⟩ | ⟨piece, holds, equal⟩)
        · exact ⟨piece, .left holds, equal⟩
        · exact ⟨piece, .right holds, equal⟩
      · rintro ⟨piece, holds, equal⟩
        exact (matches_alternative_iff.mp holds).imp (⟨piece, ·, equal⟩) (⟨piece, ·, equal⟩)
  | star body induction => exact mem_rests_star_iff induction

theorem test_iff {input : String} :
    regex.test input = true ↔ regex.MatchesText input.toList := by
  simp only [test, List.any_eq_true, List.isEmpty_iff, exists_eq_right, mem_rests_iff, Leaves,
    List.append_nil, exists_eq_right']

/-! ## Words spelled out -/

def spelled (word : List String) : List Char := word.flatMap String.toList

theorem exists_spelled (holds : regex.MatchesText text) :
    ∃ word, regex.MatchesSymbols word ∧ text = spelled word := by
  induction holds with
  | nil => exact ⟨[], .nil, rfl⟩
  | @symbol name _ same =>
      have own : spelled [name] = name.toList := List.append_nil _
      exact ⟨[name], .symbol rfl, own ▸ same⟩
  | reference none => exact none.elim
  | sequence _ _ left right =>
      rcases left with ⟨before, inFirst, rfl⟩
      rcases right with ⟨after, inSecond, rfl⟩
      exact ⟨before ++ after, .sequence inFirst inSecond, List.flatMap_append.symm⟩
  | left _ induction => exact induction.imp fun _ found => ⟨.left found.1, found.2⟩
  | right _ induction => exact induction.imp fun _ found => ⟨.right found.1, found.2⟩
  | done => exact ⟨[], .done, rfl⟩
  | again _ _ once more =>
      rcases once with ⟨first, inBody, rfl⟩
      rcases more with ⟨rest, inStar, rfl⟩
      exact ⟨first ++ rest, .again inBody inStar, List.flatMap_append.symm⟩

theorem matchesText_spelled {word : List String} (holds : regex.MatchesSymbols word)
    (closed : regex.references = []) : regex.MatchesText (spelled word) := by
  rw [references_eq_nil_iff] at closed
  induction holds with
  | nil => exact .nil
  | @symbol name _ same =>
      cases same
      exact .symbol (List.append_nil _)
  | @reference name => exact absurd List.mem_cons_self (closed name)
  | sequence _ _ left right =>
      rw [spelled, List.flatMap_append]
      exact .sequence (left fun name member => closed name (List.mem_append_left _ member))
        (right fun name member => closed name (List.mem_append_right _ member))
  | left _ induction =>
      exact .left (induction fun name member => closed name (List.mem_append_left _ member))
  | right _ induction =>
      exact .right (induction fun name member => closed name (List.mem_append_right _ member))
  | done => exact .done
  | again _ _ once more =>
      rw [spelled, List.flatMap_append]
      exact .again (once closed) (more closed)

theorem mem_names_of_matches {word : List String} (holds : regex.MatchesSymbols word)
    {letter : String} (member : letter ∈ word) : letter ∈ regex.names := by
  induction holds with
  | nil => cases member
  | symbol same =>
      cases same
      exact member
  | reference same =>
      cases same
      exact member
  | sequence _ _ left right =>
      exact List.mem_append.mpr ((List.mem_append.mp member).imp left right)
  | left _ induction => exact List.mem_append_left _ (induction member)
  | right _ induction => exact List.mem_append_right _ (induction member)
  | done => cases member
  | again _ _ once more => exact (List.mem_append.mp member).elim once more

/-! ## Simplifying -/

/-- Simplifying changes nothing that an expression matches, whatever its names stand for. -/
theorem simplify_preserves_language (regex : Regex) :
    (∀ (α : Type) (meaning : Meaning α) (word : List α),
      Matches meaning regex.simplify word ↔ Matches meaning regex word) ∧
    ∀ input, regex.simplify.test input = regex.test input := by
  refine ⟨fun α meaning word => matches_simplify_iff, fun input => Bool.eq_iff_iff.mpr ?_⟩
  rw [test_iff, test_iff]
  exact matches_simplify_iff

end FormalLanguages.Regex
