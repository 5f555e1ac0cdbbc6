import FormalLanguages.Proofs.Automaton.Table.Printing
import FormalLanguages.Proofs.Name.Spelling

namespace FormalLanguages.Automaton.Table

/-! # Names that are made from names

Names of states are counted up and joined to make new ones. What comes out can stand in a
table again, but for one exception: `-` and a name that begins with `>` make an arrow. -/

variable {name other first : String} {rest : List String}

theorem dropLeading?_eq_none_iff {mark text : List Char} :
    Text.dropLeading? mark text = none ↔ ¬ mark <+: text := by
  rw [Option.eq_none_iff_forall_ne_some]
  constructor
  · rintro absent ⟨after, whole⟩
    exact absent after (Text.dropLeading?_eq_some_iff.mpr whole.symm)
  · intro absent after found
    exact absent ⟨after, (Text.dropLeading?_eq_some_iff.mp found).symm⟩

theorem isStateName_iff : IsStateName name ↔ name ≠ "" ∧
    (∀ character, character ∈ name.toList → isNameCharacter character = true ∧ character ≠ '#') ∧
    ∀ mark, mark ∈ [startMark, asciiStartMark, acceptingMark] →
      Text.dropLeading? mark name.toList = none := by
  constructor
  · intro named
    rcases dropStartMark?_eq_none_iff.mp named.unarrowed with ⟨start, ascii⟩
    exact ⟨named.filled, named.plain, by simp [start, ascii, named.unstarred]⟩
  · rintro ⟨filled, plain, absent⟩
    exact ⟨filled, plain, dropStartMark?_eq_none_iff.mpr ⟨absent _ (by simp), absent _ (by simp)⟩,
      absent _ (by simp)⟩

/-! ## Counting up -/

theorem plain_of_isSubscript {character : Char} (subscript : Name.isSubscript character = true) :
    isNameCharacter character = true ∧ character ≠ '#' := by
  apply Text.of_code (Text.code_of_isSubscript subscript)
  decide

theorem isStateName_keptByCounting : Name.KeptByCounting IsStateName := by
  rintro name other stem named ⟨⟨old, before, _⟩, ⟨digits, some, after, subscripts⟩⟩
  rcases isStateName_iff.mp named with ⟨_, plain, absent⟩
  have unsubscripted : ∀ mark, mark ∈ [startMark, asciiStartMark, acceptingMark] →
      ∀ character, character ∈ mark → Name.isSubscript character = false := by decide
  refine isStateName_iff.mpr ⟨fun none => ?_, fun character inside => ?_, fun mark isMark => ?_⟩
  · rw [none] at after
    exact some (List.append_eq_nil_iff.mp after.symm).2
  · rw [after] at inside
    rcases List.mem_append.mp inside with inStem | inDigits
    · exact plain character (before ▸ List.mem_append_left _ inStem)
    · exact plain_of_isSubscript (subscripts character inDigits)
  · rw [after]
    refine Text.dropLeading?_append (dropLeading?_eq_none_iff.mpr fun begins => ?_) ?_
    · have earlier := before ▸ absent mark isMark
      exact dropLeading?_eq_none_iff.mp earlier (begins.trans (List.prefix_append _ _))
    · intro head isHead begun
      have inMark := begun.subset (List.mem_append_right _ List.mem_cons_self)
      have plainHead := unsubscripted mark isMark head inMark
      exact Bool.false_ne_true
        (plainHead.symm.trans (subscripts head (List.mem_of_head? isHead)))

/-- A name that no other name completes to an arrow. -/
structure IsWholeName (name : String) : Prop extends IsStateName name where
  undashed : name ≠ "-"

theorem isWholeName_emptySetName : IsWholeName emptySetName :=
  ⟨⟨by decide, by decide, by decide, by decide⟩, by decide⟩

theorem isWholeName_keptByCounting : Name.KeptByCounting IsWholeName := by
  rintro name other stem named recounted
  refine ⟨isStateName_keptByCounting named.toIsStateName recounted, fun dash => ?_⟩
  rcases recounted.after with ⟨digits, some, after, subscripts⟩
  have inside : digits.getLast some ∈ other.toList :=
    after ▸ List.mem_append_right _ (List.getLast_mem some)
  rw [dash] at inside
  have subscript := subscripts _ (List.getLast_mem some)
  rw [List.mem_singleton.mp inside] at subscript
  cases subscript

/-! ## Joining -/

/-- A name may be followed by anything that names are made of, unless that makes an arrow. -/
theorem IsStateName.append (named : IsStateName name) {text : List Char}
    (plain : ∀ character, character ∈ text → isNameCharacter character = true ∧ character ≠ '#')
    (apart : name = "-" → text.head? ≠ some '>') (whole : other.toList = name.toList ++ text) :
    IsStateName other := by
  rcases isStateName_iff.mp named with ⟨filled, plainName, absent⟩
  rcases exists_head filled with ⟨head, tail, spelled⟩
  refine isStateName_iff.mpr ⟨fun none => ?_, fun character inside => ?_, fun mark isMark => ?_⟩
  · rw [none, spelled] at whole
    cases whole
  · rw [whole] at inside
    exact (List.mem_append.mp inside).elim (plainName character) (plain character)
  · rw [whole]
    refine Text.dropLeading?_append (absent mark isMark) fun next isNext begun => ?_
    rcases begun with ⟨after, parts⟩
    rw [spelled, List.append_assoc, List.cons_append] at parts
    simp only [startMark, asciiStartMark, acceptingMark, List.mem_cons, List.not_mem_nil,
      or_false] at isMark
    rcases isMark with rfl | rfl | rfl
    · have rest := (List.cons.inj parts).2
      simp at rest
    · rcases List.cons.inj parts with ⟨rfl, rest⟩
      cases tail with
      | nil =>
          rw [(List.cons.inj rest).1] at isNext
          exact apart (String.toList_inj.mp spelled) isNext
      | cons =>
          have beyond := (List.cons.inj rest).2
          simp at beyond
    · have rest := (List.cons.inj parts).2
      simp at rest

theorem plain_of_mem {names : List String} (named : ∀ name, name ∈ names → IsStateName name)
    {piece : List Char} (member : piece ∈ names.map String.toList) {character : Char}
    (inside : character ∈ piece) : isNameCharacter character = true ∧ character ≠ '#' := by
  rcases List.mem_map.mp member with ⟨name, listed, rfl⟩
  exact (named name listed).plain character inside

theorem isStateName_joined (named : ∀ name, name ∈ first :: rest → IsStateName name) :
    IsStateName (Text.joined "," (first :: rest)) := by
  cases rest with
  | nil => exact named first List.mem_cons_self
  | cons next rest =>
      have whole : (Text.joined "," (first :: next :: rest)).toList =
          first.toList ++ ',' :: (Text.joined "," (next :: rest)).toList := by
        rw [Text.joined, String.toList_append, String.toList_append, List.append_assoc]
        rfl
      refine (named first List.mem_cons_self).append (List.forall_mem_cons.mpr ⟨by decide, ?_⟩)
        (fun _ => by simp) whole
      intro character inside
      rw [Text.toList_joined] at inside
      rcases Text.mem_intercalate inside with comma | ⟨piece, member, own⟩
      · rw [List.mem_singleton.mp comma]
        decide
      · exact plain_of_mem (fun name listed => named name (List.mem_cons_of_mem _ listed)) member own

theorem isWholeName_joined (named : ∀ name, name ∈ first :: rest → IsWholeName name) :
    IsWholeName (Text.joined "," (first :: rest)) := by
  refine ⟨isStateName_joined fun name member => (named name member).toIsStateName, fun dash => ?_⟩
  cases rest with
  | nil => exact (named first List.mem_cons_self).undashed dash
  | cons next rest =>
      have comma : ',' ∈ (Text.joined "," (first :: next :: rest)).toList := by
        rw [Text.joined, String.toList_append, String.toList_append]
        simp
      rw [dash] at comma
      exact absurd comma (by decide)

theorem isStateName_concatenated (named : ∀ name, name ∈ first :: rest → IsWholeName name) :
    IsStateName (Text.concatenated (first :: rest)) := by
  have whole := named first List.mem_cons_self
  have spelled : (Text.concatenated (first :: rest)).toList =
      first.toList ++ rest.flatMap String.toList := by
    rw [Text.toList_concatenated, List.flatMap_cons]
  refine whole.append (fun character inside => ?_) (fun dash => absurd dash whole.undashed) spelled
  rcases List.mem_flatMap.mp inside with ⟨name, listed, own⟩
  exact (named name (List.mem_cons_of_mem _ listed)).plain character own

end FormalLanguages.Automaton.Table
