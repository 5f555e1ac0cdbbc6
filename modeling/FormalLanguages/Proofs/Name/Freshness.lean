import FormalLanguages.Name.Fresh
import FormalLanguages.Proofs.Text.Characters
import FormalLanguages.Reachability

namespace FormalLanguages.Name

/-! A name that is counted up is free. Subscripts tell numbers apart, so the names
that are tried all differ, and there are fewer taken names than attempts. -/

theorem raised_lowered {digit : Char} (isDigit : digit.isDigit = true) :
    raised (lowered digit) = digit := by
  apply Text.of_code (Text.code_of_isDigit isDigit)
  decide

theorem raised_subscriptDigits (number : Nat) :
    (subscriptDigits number).map raised = Nat.toDigits 10 number := by
  rw [subscriptDigits, List.map_map]
  refine (List.map_congr_left fun digit member => ?_).trans (List.map_id _)
  have isDigit := Nat.isDigit_of_mem_toDigits (b := 10) (by decide) (by decide) member
  rw [Function.comp_apply, raised_lowered isDigit, id]

theorem subscriptDigits_injective {left right : Nat}
    (equal : subscriptDigits left = subscriptDigits right) : left = right := by
  have digits : Nat.toDigits 10 left = Nat.toDigits 10 right := by
    rw [← raised_subscriptDigits, equal, raised_subscriptDigits]
  rw [← Nat.ofDigitChars_ten_toDigits (n := left), digits, Nat.ofDigitChars_ten_toDigits]

theorem numbered_injective {stem : String} {left right : Nat}
    (equal : numbered stem left = numbered stem right) : left = right := by
  have lists := congrArg String.toList equal
  simp only [numbered, subscript, String.toList_append, String.toList_ofList] at lists
  exact subscriptDigits_injective (List.append_cancel_left lists)

theorem nodup_names {name : Nat → String}
    (injective : ∀ left right, name left = name right → left = right) (first count : Nat) :
    ((List.range' first count).map name).Nodup := by
  have positions : (List.range' first count).Nodup := List.nodup_range'
  rw [List.nodup_iff_pairwise_ne, List.pairwise_map]
  exact positions.imp fun different equal => different (injective _ _ equal)

/-- The names with `count` numbers, from `number` on. -/
def series (stem : String) (number count : Nat) : List String :=
  (List.range' number count).map (numbered stem)

theorem nodup_series (stem : String) (number count : Nat) : (series stem number count).Nodup :=
  nodup_names (fun _ _ => numbered_injective) number count

/-! Numbers wrap around at most once before the longer ones begin, so no number is tried twice. -/

theorem attempted_injective {number left right : Nat}
    (equal : attempted number left = attempted number right) : left = right := by
  have limit : numberLimit = 18446744073709551616 := rfl
  rw [attempted, attempted, limit] at equal
  split at equal <;> split at equal <;> omega

theorem candidate_injective {reading : Reading} {left right : Nat}
    (equal : candidate reading left = candidate reading right) : left = right :=
  attempted_injective (numbered_injective equal)

def candidates (reading : Reading) (attempt count : Nat) : List String :=
  (List.range' attempt count).map (candidate reading)

theorem nodup_candidates (reading : Reading) (attempt count : Nat) :
    (candidates reading attempt count).Nodup :=
  nodup_names (fun _ _ => candidate_injective) attempt count

/-! The attempts form an interval, and only the name of the last one may be free. -/

theorem firstFree_interval (reading : Reading) (taken : List String) (attempts attempt : Nat) :
    ∃ count, count ≤ attempts ∧
      firstFree reading taken attempts attempt =
        ⟨candidate reading (attempt + count), candidates reading attempt (count + 1)⟩ ∧
      (∀ tried, attempt ≤ tried → tried < attempt + count → candidate reading tried ∈ taken) ∧
      (candidate reading (attempt + count) ∈ taken → count = attempts) := by
  induction attempts generalizing attempt with
  | zero => exact ⟨0, Nat.le_refl _, rfl, fun _ _ _ => by omega, fun _ => rfl⟩
  | succ attempts induction =>
      by_cases member : candidate reading attempt ∈ taken
      · rcases induction (attempt + 1) with ⟨count, bounded, chosen, before, used⟩
        have shift : attempt + 1 + count = attempt + (count + 1) := by omega
        rw [shift] at chosen before used
        refine ⟨count + 1, by omega, ?_, ?_, fun inTaken => congrArg _ (used inTaken)⟩
        · rw [firstFree, if_pos member, chosen]
          rfl
        · intro tried least below
          by_cases first : tried = attempt
          · exact first ▸ member
          · exact before tried (by omega) below
      · refine ⟨0, Nat.zero_le _, ?_, fun _ _ _ => by omega, fun inTaken => absurd inTaken member⟩
        rw [firstFree, if_neg member]
        rfl

theorem firstFree_not_mem (reading : Reading) (taken : List String) (attempt : Nat) :
    (firstFree reading taken taken.length attempt).name ∉ taken := by
  rcases firstFree_interval reading taken taken.length attempt with
    ⟨count, _, chosen, before, used⟩
  rw [chosen]
  intro inTaken
  -- Every name of the interval is taken now, and there is one more of them than taken names.
  have whole := used inTaken
  have subset : ∀ tried, tried ∈ candidates reading attempt (count + 1) → tried ∈ taken := by
    intro tried member
    rcases List.mem_map.mp member with ⟨position, inRange, rfl⟩
    have bounds := List.mem_range'_1.mp inRange
    by_cases final : position = attempt + count
    · exact final ▸ inTaken
    · exact before position bounds.1 (by omega)
  have fits := Reachable.length_le_of_nodup (nodup_candidates reading attempt (count + 1)) subset
  rw [candidates, List.length_map, List.length_range'] at fits
  omega

theorem countUp_not_mem (name : String) (taken : List String) : countUp name taken ∉ taken :=
  firstFree_not_mem (reading name) taken 0

theorem freshOrSelf_not_mem (name : String) (taken : List String) :
    freshOrSelf name taken ∉ taken := by
  rw [freshOrSelf, chooseOwn]
  split
  case isTrue => exact countUp_not_mem name taken
  case isFalse free => exact free

theorem freshOrSelf_of_not_mem {name : String} {taken : List String} (free : name ∉ taken) :
    freshOrSelf name taken = name := by
  rw [freshOrSelf, chooseOwn, if_neg free]

/-! What is taken matters only as far as the name itself and its numbers go. -/

theorem firstFree_congr {reading : Reading} {taken others : List String} {attempt : Nat}
    (same : ∀ tried, candidate reading tried ∈ taken ↔ candidate reading tried ∈ others) :
    (firstFree reading taken taken.length attempt).name =
      (firstFree reading others others.length attempt).name := by
  have free := firstFree_not_mem reading taken attempt
  have otherFree := firstFree_not_mem reading others attempt
  rcases firstFree_interval reading taken taken.length attempt with ⟨count, _, chosen, before, _⟩
  rcases firstFree_interval reading others others.length attempt with
    ⟨other, _, otherChosen, otherBefore, _⟩
  rw [chosen] at free ⊢
  rw [otherChosen] at otherFree ⊢
  rcases Nat.lt_trichotomy count other with earlier | equal | later
  · exact absurd ((same _).mpr (otherBefore _ (Nat.le_add_right _ _) (by omega))) free
  · rw [equal]
  · exact absurd ((same _).mp (before _ (Nat.le_add_right _ _) (by omega))) otherFree

theorem freshOrSelf_congr {name : String} {taken others : List String}
    (own : name ∈ taken ↔ name ∈ others)
    (numbers : ∀ number, numbered (reading name).stem number ∈ taken ↔
      numbered (reading name).stem number ∈ others) :
    freshOrSelf name taken = freshOrSelf name others := by
  by_cases member : name ∈ taken
  · rw [freshOrSelf, freshOrSelf, chooseOwn, chooseOwn, if_pos member, if_pos (own.mp member)]
    exact firstFree_congr fun _ => numbers _
  · rw [freshOrSelf_of_not_mem member, freshOrSelf_of_not_mem (mt own.mpr member)]

end FormalLanguages.Name
