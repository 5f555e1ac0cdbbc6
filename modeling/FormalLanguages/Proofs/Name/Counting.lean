import FormalLanguages.Proofs.Name.Spelling

namespace FormalLanguages.Name

/-! # Counting up

A name is read as a stem and a number. Counting up goes on from that number, one by one, to the
first one whose name is free. -/

/-! ## Reading -/

/-- The number that subscripts spell, from the first digit on. -/
def spelled (digits : List Char) : Nat :=
  digits.foldl (fun number digit => 10 * number + (digit.toNat - '₀'.toNat)) 0

/-- A name is cut before its last subscripts. -/
structure Parts (name : String) (stem digits : List Char) : Prop where
  whole : name.toList = stem ++ digits
  bare : ∀ last, stem.getLast? = some last → isSubscript last = false
  subscripts : ∀ digit, digit ∈ digits → isSubscript digit = true

/-- A name without a number, or with one that is too long, is a stem as it stands. -/
inductive ReadsAs (name : String) : Reading → Prop
  | number {stem digits : List Char} (parts : Parts name stem digits) (filled : digits ≠ [])
      (fits : spelled digits < numberLimit) : ReadsAs name ⟨String.ofList stem, spelled digits⟩
  | stem {stem digits : List Char} (parts : Parts name stem digits)
      (unread : digits = [] ∨ numberLimit ≤ spelled digits) : ReadsAs name ⟨name, 0⟩

theorem ofDigitChars_raised {digits : List Char}
    (subscripts : ∀ digit, digit ∈ digits → isSubscript digit = true) :
    Nat.ofDigitChars 10 (digits.map raised) 0 = spelled digits := by
  rw [Nat.ofDigitChars_eq_foldl, List.foldl_map, spelled]
  refine List.foldl_ext _ _ _ fun number digit member => ?_
  have same : (raised digit).toNat - '0'.toNat = digit.toNat - '₀'.toNat := by
    apply Text.of_code (Text.code_of_isSubscript (subscripts digit member))
    decide
  rw [same]

theorem spelled_subscriptDigits (number : Nat) : spelled (subscriptDigits number) = number := by
  rw [← ofDigitChars_raised fun _ => isSubscript_of_mem_subscriptDigits, raised_subscriptDigits,
    Nat.ofDigitChars_ten_toDigits]

theorem parts_of_name (name : String) :
    Parts name (leadingStem name) (trailingSubscripts name) where
  whole := (leadingStem_append_trailingSubscripts name).symm
  bare last ends := by
    rw [leadingStem, List.getLast?_reverse] at ends
    have kept := List.head?_dropWhile_not isSubscript name.toList.reverse
    rw [ends] at kept
    simpa using kept
  subscripts _ := isSubscript_of_mem_trailingSubscripts

theorem Parts.digits_eq {name : String} {stem digits : List Char} (parts : Parts name stem digits) :
    digits = trailingSubscripts name := by
  have stops : stem.reverse.takeWhile isSubscript = [] := by
    cases backwards : stem.reverse with
    | nil => rfl
    | cons last before =>
        have ends : stem.getLast? = some last := by
          rw [List.getLast?_eq_head?_reverse, backwards, List.head?_cons]
        rw [List.takeWhile_cons, parts.bare last ends, if_neg Bool.false_ne_true]
  rw [trailingSubscripts, parts.whole, List.reverse_append, List.takeWhile_append_of_pos
    fun digit member => parts.subscripts digit (List.mem_reverse.mp member), stops,
    List.append_nil, List.reverse_reverse]

theorem Parts.stem_eq {name : String} {stem digits : List Char} (parts : Parts name stem digits) :
    stem = leadingStem name := by
  have whole : stem ++ digits = leadingStem name ++ digits := by
    rw [← parts.whole, parts.digits_eq, leadingStem_append_trailingSubscripts]
  exact List.append_cancel_right whole

/-- A name has a number unless it ends in no subscripts or in those of a number that is too
long. -/
theorem Parts.read?_eq {name : String} {stem digits : List Char} (parts : Parts name stem digits) :
    read? name =
      if digits = [] ∨ numberLimit ≤ spelled digits then none
      else some ⟨String.ofList stem, spelled digits⟩ := by
  rw [read?, ← parts.digits_eq, ← parts.stem_eq, ofDigitChars_raised parts.subscripts]
  simp only [Bool.or_eq_true, List.isEmpty_iff, decide_eq_true_eq, ge_iff_le]

/-- A name can be read in one way only. -/
theorem readsAs_iff {name : String} {found : Reading} :
    ReadsAs name found ↔ found = reading name := by
  constructor
  · intro reads
    rw [reading]
    cases reads with
    | number parts filled fits =>
        have counted := not_or.mpr ⟨filled, Nat.not_le.mpr fits⟩
        rw [parts.read?_eq, if_neg counted, Option.getD_some]
    | stem parts unread => rw [parts.read?_eq, if_pos unread, Option.getD_none]
  · intro same
    have parts := parts_of_name name
    rw [same, reading, parts.read?_eq]
    split
    case isTrue unread => exact .stem parts unread
    case isFalse counted =>
      rw [not_or, Nat.not_le] at counted
      exact .number parts counted.1 counted.2

/-- Another number makes another name. -/
theorem ReadsAs.numbered_ne {name : String} {found : Reading} (reads : ReadsAs name found)
    {number : Nat} (other : number ≠ found.number) : numbered found.stem number ≠ name := by
  intro same
  have letters := congrArg String.toList same
  rw [toList_numbered] at letters
  cases reads with
  | stem => exact subscriptDigits_ne_nil number (List.self_eq_append_right.mp letters.symm)
  | number parts =>
      rw [String.toList_ofList, parts.whole] at letters
      rw [← List.append_cancel_left letters, spelled_subscriptDigits] at other
      exact other rfl

/-! ## Searching -/

/-- The number after the greatest one of 64 bits is zero. -/
def following (number : Nat) : Nat := (number + 1) % numberLimit

/-- A search for a free name that goes on until it finds one. -/
inductive Settles (stem : String) (taken : List String) : Nat → Choice → Prop
  | free {number : Nat} (free : numbered stem number ∉ taken) :
      Settles stem taken number ⟨numbered stem number, [numbered stem number]⟩
  | used {number : Nat} {later : Choice} (used : numbered stem number ∈ taken)
      (next : Settles stem taken (following number) later) :
      Settles stem taken number ⟨later.name, numbered stem number :: later.considered⟩

theorem following_attempted {number attempt : Nat} (fits : attempt + 1 < numberLimit) :
    following (attempted number attempt) = attempted number (attempt + 1) := by
  have limit : numberLimit = 18446744073709551616 := rfl
  rw [limit] at fits
  rw [following, attempted, attempted, limit, if_pos (by omega), if_pos fits]
  omega

theorem settles_candidates {found : Reading} {taken : List String} {attempt count : Nat}
    (fits : attempt + count < numberLimit) (free : candidate found (attempt + count) ∉ taken)
    (used : ∀ tried, attempt ≤ tried → tried < attempt + count → candidate found tried ∈ taken) :
    Settles found.stem taken (attempted found.number attempt)
      ⟨candidate found (attempt + count), candidates found attempt (count + 1)⟩ := by
  induction count generalizing attempt with
  | zero => exact .free free
  | succ count induction =>
      have shift : attempt + (count + 1) = attempt + 1 + count := by omega
      rw [shift] at fits free used ⊢
      have later := induction fits free fun tried least => used tried (by omega)
      rw [← following_attempted (by omega)] at later
      exact .used (used attempt (Nat.le_refl _) (by omega)) later

/-- Nothing wraps around before the greatest number. -/
theorem candidate_of_fits {found : Reading} {attempt : Nat}
    (fits : found.number + 1 + attempt < numberLimit) :
    candidate found attempt = numbered found.stem (found.number + 1 + attempt) := by
  rw [candidate, attempted, if_pos (by omega), Nat.mod_eq_of_lt fits]

theorem candidates_eq_series {found : Reading} {count : Nat}
    (fits : found.number + count < numberLimit) :
    candidates found 0 count = series found.stem (found.number + 1) count := by
  rw [candidates, series, List.range'_eq_map_range, List.range'_eq_map_range, List.map_map,
    List.map_map]
  refine List.map_congr_left fun attempt member => ?_
  have below := List.mem_range.mp member
  rw [Function.comp_apply, Function.comp_apply, Nat.zero_add, candidate_of_fits (by omega)]

/-- The search from a reading, as far as the first free candidate. -/
structure Counted (found : Reading) (taken : List String) (count : Nat) (choice : Choice) :
    Prop where
  choice : choice = ⟨candidate found count, candidates found 0 (count + 1)⟩
  bounded : count ≤ taken.length
  used : ∀ tried, tried < count → candidate found tried ∈ taken
  free : candidate found count ∉ taken

theorem exists_counted (found : Reading) (taken : List String) :
    ∃ count, Counted found taken count (firstFree found taken taken.length 0) := by
  have free := firstFree_not_mem found taken 0
  rcases firstFree_interval found taken taken.length 0 with ⟨count, bounded, chosen, used, _⟩
  rw [Nat.zero_add] at chosen used
  rw [chosen] at free
  exact ⟨count, chosen, bounded, fun tried => used tried (Nat.zero_le _), free⟩

namespace Counted

variable {found : Reading} {taken : List String} {count : Nat} {choice : Choice}

theorem settles (counted : Counted found taken count choice) (fits : count < numberLimit) :
    Settles found.stem taken (following found.number) choice := by
  have first : attempted found.number 0 = following found.number := if_pos (by decide)
  have interval : 0 + count = count := Nat.zero_add count
  have settles : Settles found.stem taken (attempted found.number 0)
      ⟨candidate found (0 + count), candidates found 0 (count + 1)⟩ :=
    settles_candidates (interval.symm ▸ fits) (interval.symm ▸ counted.free)
      fun tried _ below => counted.used tried (interval ▸ below)
  rwa [first, interval, ← counted.choice] at settles

/-- Only after all other numbers does the search come back to the one that was read. -/
theorem ne_of_readsAs (counted : Counted found taken count choice) {name : String}
    (reads : ReadsAs name found) (fits : count + 1 < numberLimit) : choice.name ≠ name := by
  have other : attempted found.number count ≠ found.number := by
    have limit : numberLimit = 18446744073709551616 := rfl
    rw [limit] at fits
    rw [attempted, limit, if_pos (by omega)]
    omega
  rw [counted.choice]
  exact reads.numbered_ne other

/-- The search ends before it wraps around if there is a greater number whose name is free. -/
theorem le_of_free (counted : Counted found taken count choice) {number : Nat}
    (greater : found.number < number) (fits : number < numberLimit)
    (free : numbered found.stem number ∉ taken) : found.number + 1 + count ≤ number := by
  refine Nat.le_of_not_lt fun beyond => free ?_
  have position : found.number + 1 + (number - (found.number + 1)) = number := by omega
  have used := counted.used (number - (found.number + 1)) (by omega)
  rwa [candidate_of_fits (position.symm ▸ fits), position] at used

theorem choice_of_fits (counted : Counted found taken count choice)
    (fits : found.number + 1 + count < numberLimit) :
    choice = ⟨numbered found.stem (found.number + 1 + count),
      series found.stem (found.number + 1) (count + 1)⟩ := by
  rw [counted.choice, candidate_of_fits fits, candidates_eq_series (by omega)]

end Counted

/-- Counting up gives the least greater number whose name is free, if there is one of 64 bits. It
asks for the names up to that one, in their order, and takes at most one attempt more than there
are taken names. Otherwise it goes on from zero, and finds a free name as well. -/
theorem countUp_exact (name : String) (taken : List String) :
    ∃ found, ReadsAs name found ∧ countUp name taken ∉ taken ∧
      (∀ number, found.number < number → number < numberLimit →
        numbered found.stem number ∉ taken →
        ∃ last, found.number < last ∧ last ≤ number ∧ last ≤ found.number + taken.length + 1 ∧
          countUp name taken = numbered found.stem last ∧ countUp name taken ≠ name ∧
          (∀ tried, found.number < tried → tried < last → numbered found.stem tried ∈ taken) ∧
          (chooseNext name taken).considered =
            series found.stem (found.number + 1) (last - found.number) ∧
          Settles found.stem taken (found.number + 1) (chooseNext name taken)) ∧
      (taken.length + 1 < numberLimit → countUp name taken ≠ name ∧
        Settles found.stem taken (following found.number) (chooseNext name taken)) ∧
      freshOrSelf name taken = if name ∈ taken then countUp name taken else name := by
  have reads : ReadsAs name (reading name) := readsAs_iff.mpr rfl
  rcases exists_counted (reading name) taken with ⟨count, counted⟩
  change Counted (reading name) taken count (chooseNext name taken) at counted
  have bounded := counted.bounded
  refine ⟨reading name, reads, countUp_not_mem name taken, fun number greater fits free => ?_,
    fun fits => ?_, ?_⟩
  · have least := counted.le_of_free greater fits free
    have chosen := counted.choice_of_fits (Nat.lt_of_le_of_lt least fits)
    have next : following (reading name).number = (reading name).number + 1 :=
      Nat.mod_eq_of_lt (by omega)
    refine ⟨(reading name).number + 1 + count, by omega, least, by omega,
      congrArg Choice.name chosen, counted.ne_of_readsAs reads (by omega), ?_, ?_,
      next ▸ counted.settles (by omega)⟩
    · intro tried after before
      have position : (reading name).number + 1 + (tried - ((reading name).number + 1)) = tried :=
        by omega
      have used := counted.used (tried - ((reading name).number + 1)) (by omega)
      rwa [candidate_of_fits (by omega), position] at used
    · rw [show (reading name).number + 1 + count - (reading name).number = count + 1 by omega]
      exact congrArg Choice.considered chosen
  · exact ⟨counted.ne_of_readsAs reads (by omega), counted.settles (by omega)⟩
  · rw [freshOrSelf, chooseOwn]
    split <;> rfl

/-- Zeros in front are not kept, a number of 65 bits is not counted up, and the greatest one of
64 bits is followed by zero. -/
example : chooseNext "q₀₉" ["q₁₀"] = ⟨"q₁₁", ["q₁₀", "q₁₁"]⟩ ∧
    countUp "q₁₈₄₄₆₇₄₄₀₇₃₇₀₉₅₅₁₆₁₆" [] = "q₁₈₄₄₆₇₄₄₀₇₃₇₀₉₅₅₁₆₁₆₁" ∧
    chooseNext "q₁₈₄₄₆₇₄₄₀₇₃₇₀₉₅₅₁₆₁₅" ["q₀"] = ⟨"q₁", ["q₀", "q₁"]⟩ := by
  decide

end FormalLanguages.Name
