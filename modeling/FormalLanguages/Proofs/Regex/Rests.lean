import FormalLanguages.Proofs.Reachability
import FormalLanguages.Proofs.Regex.Matching
import Mathlib.Data.List.Destutter
import Mathlib.Data.List.Infix
import Mathlib.Data.List.Sort

namespace FormalLanguages.Regex

/-! # The list of rests

What a run leaves over is listed from the longest rest to the shortest. Two rests of one text
that are equally long are equal, so comparing lengths is enough to list each of them once. -/

variable {regex : Regex} {text rest : List Char} {candidates : List (List Char)}

/-! ## Order -/

def Descending (rests : List (List Char)) : Prop :=
  rests.Pairwise fun longer shorter => shorter.length < longer.length

theorem Descending.nodup {rests : List (List Char)} (descending : Descending rests) :
    rests.Nodup := by
  refine List.Pairwise.imp ?_ descending
  rintro longer _ less rfl
  exact Nat.lt_irrefl _ less

theorem descending_insertRest {rests : List (List Char)} (descending : Descending rests)
    (apart : ∀ other, other ∈ rests → other.length = rest.length → other = rest) :
    Descending (insertRest rest rests) := by
  induction rests with
  | nil => exact List.pairwise_singleton _ _
  | cons head tail induction =>
      rcases List.pairwise_cons.mp descending with ⟨first, later⟩
      rw [insertRest]
      split
      case isTrue shorter =>
        refine List.pairwise_cons.mpr ⟨fun other member => ?_, descending⟩
        rcases List.mem_cons.mp member with rfl | member
        · exact shorter
        · exact (first other member).trans shorter
      case isFalse notShorter =>
        split
        case isTrue => exact descending
        case isFalse different =>
          have longer : rest.length < head.length := by
            have unequal : head.length ≠ rest.length := fun same =>
              different (apart head List.mem_cons_self same)
            omega
          refine List.pairwise_cons.mpr ⟨fun other member => ?_,
            induction later fun other member => apart other (List.mem_cons_of_mem _ member)⟩
          rcases mem_insertRest.mp member with rfl | member
          · exact longer
          · exact first other member

theorem descending_longestFirst (suffixes : ∀ rest, rest ∈ candidates → rest <:+ text) :
    Descending (longestFirst candidates) := by
  induction candidates with
  | nil => exact .nil
  | cons head tail induction =>
      rcases List.forall_mem_cons.mp suffixes with ⟨first, later⟩
      refine descending_insertRest (induction later) fun other member same => ?_
      have part := later other (mem_longestFirst.mp member)
      exact (List.suffix_of_suffix_length_le part first (Nat.le_of_eq same)).eq_of_length same

/-! ### Sorting and dropping repetitions -/

/-- Among the rests of one text it makes no difference whether characters or bytes are counted. -/
theorem isSuffix_of_size_le {shorter longer : List Char} (first : shorter <:+ text)
    (second : longer <:+ text)
    (less : (String.ofList shorter).utf8ByteSize ≤ (String.ofList longer).utf8ByteSize) :
    shorter <:+ longer := by
  rcases List.suffix_or_suffix_of_suffix first second with part | ⟨piece, rfl⟩
  · exact part
  · rw [String.ofList_append, String.utf8ByteSize_append] at less
    have nothing : String.ofList piece = "" := String.utf8ByteSize_eq_zero_iff.mp (by omega)
    rw [String.ofList_eq_empty_iff.mp nothing]
    exact List.suffix_rfl

/-- However the candidates are sorted by size, dropping each that repeats the one before it
leaves the same list. -/
theorem destutter_eq_longestFirst {sorted : List (List Char)}
    (suffixes : ∀ rest, rest ∈ candidates → rest <:+ text) (same : sorted.Perm candidates)
    (ordered : sorted.Pairwise fun longer shorter =>
      (String.ofList shorter).utf8ByteSize ≤ (String.ofList longer).utf8ByteSize) :
    sorted.destutter (· ≠ ·) = longestFirst candidates := by
  -- Both lists descend by `<:+`, which unlike the size is antisymmetric, and have the same members.
  have antisymm : Std.Antisymm fun longer shorter : List Char => shorter <:+ longer :=
    ⟨fun _ _ first second => antisymm second first⟩
  have descending := descending_longestFirst suffixes
  have nested : sorted.Pairwise fun longer shorter => shorter <:+ longer :=
    ordered.imp_of_mem fun inLonger inShorter less => isSuffix_of_size_le
      (suffixes _ (same.mem_iff.mp inShorter)) (suffixes _ (same.mem_iff.mp inLonger)) less
  have listed : (longestFirst candidates).Pairwise fun longer shorter => shorter <:+ longer :=
    descending.imp_of_mem fun inLonger inShorter less => List.suffix_of_suffix_length_le
      (suffixes _ (mem_longestFirst.mp inShorter)) (suffixes _ (mem_longestFirst.mp inLonger))
      (Nat.le_of_lt less)
  rw [nested.destutter_eq_dedup]
  refine List.Perm.eq_of_pairwise' (nested.sublist (List.dedup_sublist _)) listed ?_
  refine (List.perm_ext_iff_of_nodup (List.nodup_dedup _) descending.nodup).mpr fun rest => ?_
  rw [List.mem_dedup, mem_longestFirst, same.mem_iff]

/-! ### The rests of an expression -/

theorem isSuffix_of_mem_rests (member : rest ∈ rests regex text) : rest <:+ text := by
  rcases mem_rests_iff.mp member with ⟨piece, _, rfl⟩
  exact List.suffix_append piece rest

theorem descending_of_sorted (sorted : rests regex text = longestFirst candidates) :
    Descending (rests regex text) := by
  have suffixes : ∀ rest, rest ∈ candidates → rest <:+ text := fun rest member =>
    isSuffix_of_mem_rests (sorted ▸ mem_longestFirst.mpr member)
  exact sorted ▸ descending_longestFirst suffixes

theorem descending_rests (regex : Regex) (text : List Char) : Descending (rests regex text) := by
  cases regex with
  | empty => exact .nil
  | nil => exact List.pairwise_singleton _ _
  | symbol name =>
      rw [rests]
      cases Text.dropLeading? name.toList text with
      | none => exact .nil
      | some rest => exact List.pairwise_singleton _ _
  | reference => exact .nil
  | sequence | alternative | star => exact descending_of_sorted rfl

/-! ## Stars -/

/-- The rests that rounds of the body leave over run out, also where the body matches nothing. -/
theorem exhausts_rests_star (body : Regex) (text : List Char) :
    ∃ found, Reachable.Exhausts (rests body) [] [text] found ∧
      rests (star body) text = longestFirst found :=
  ⟨_, Reachable.exhausts_list (mem_tails_of_reachable mem_rests_iff) (length_tails_le text), rfl⟩

/-! ## Runs -/

theorem mem_run_iff {input rest : String} : rest ∈ regex.run input ↔
    ∃ piece : String, regex.MatchesText piece.toList ∧ input = piece ++ rest := by
  rw [run, List.mem_map]
  constructor
  · rintro ⟨rest, member, rfl⟩
    rcases mem_rests_iff.mp member with ⟨piece, holds, whole⟩
    refine ⟨String.ofList piece, by rwa [String.toList_ofList], String.toList_inj.mp ?_⟩
    rw [whole, String.toList_append, String.toList_ofList, String.toList_ofList]
  · rintro ⟨piece, holds, rfl⟩
    exact ⟨rest.toList, mem_rests_iff.mpr ⟨piece.toList, holds, String.toList_append⟩,
      String.ofList_toList⟩

theorem pairwise_run (regex : Regex) (input : String) : (regex.run input).Pairwise
    fun longer shorter => shorter.length < longer.length ∧ ∃ piece, longer = piece ++ shorter := by
  refine List.pairwise_map.mpr ((descending_rests regex input.toList).imp_of_mem
    @fun longer shorter inLonger inShorter less => ?_)
  have part : shorter <:+ longer := List.suffix_of_suffix_length_le
    (isSuffix_of_mem_rests inShorter) (isSuffix_of_mem_rests inLonger) (Nat.le_of_lt less)
  rcases part with ⟨piece, rfl⟩
  rw [String.length_ofList, String.length_ofList]
  exact ⟨less, String.ofList piece, String.ofList_append⟩

/-- A run lists exactly what the pieces that are matched leave over, from the longest rest to
the shortest, and it ends even if a star goes round without taking anything. -/
theorem run_exact (regex : Regex) (input : String) :
    (∀ rest, rest ∈ regex.run input ↔
      ∃ piece : String, regex.MatchesText piece.toList ∧ input = piece ++ rest) ∧
    (regex.run input).Pairwise (fun longer shorter =>
      shorter.length < longer.length ∧ ∃ piece, longer = piece ++ shorter) ∧
    (regex.run input).Nodup ∧
    (∀ body text, ∃ found, Reachable.Exhausts (rests body) [] [text] found ∧
      rests (star body) text = longestFirst found) ∧
    (regex.test input = true ↔ regex.MatchesText input.toList) := by
  have nodup : (regex.run input).Nodup :=
    (descending_rests regex input.toList).nodup.map fun _ _ same => String.ofList_injective same
  exact ⟨fun rest => mem_run_iff, pairwise_run regex input, nodup, exhausts_rests_star, test_iff⟩

/-- The inner star goes round without taking anything. -/
example : run (star (alternative (star (symbol "a")) (symbol "ab"))) "aabb" =
    ["aabb", "abb", "bb", "b"] := by
  decide

end FormalLanguages.Regex
