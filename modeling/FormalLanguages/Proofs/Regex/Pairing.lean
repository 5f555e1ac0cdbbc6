import FormalLanguages.Proofs.Regex.Rests

namespace FormalLanguages.Regex

/-! # Sameness is an equivalence

Operands are taken away one by one, each by the first that fits, and none is ever given back. If
there is a way to pair all of them, this finds one: expressions with one counterpart in common
have all of their counterparts in common. -/

open scoped List

variable {left right : Regex}

/-- What has a counterpart in common with the expression has no others than it has. -/
def Shares (left : Regex) : Prop :=
  ∀ other right last : Regex, left.same right = true → other.same right = true →
    other.same last = true → left.same last = true

/-! ## Removing operands -/

section Removing

variable {lefts others order struck : List Regex} {first second : Regex}

/-- A counterpart may be traded for another one if that suits whoever had it. -/
theorem exists_traded
    (matched : List.Forall₂ (fun here there => here.same there = true) lefts struck)
    (member : second ∈ struck)
    (suits : ∀ regex, regex ∈ lefts → regex.same second = true → regex.same first = true) :
    ∃ traded, List.Forall₂ (fun here there => here.same there = true) lefts traded ∧
      (second :: traded).Perm (first :: struck) := by
  induction matched with
  | nil => cases member
  | @cons head counterpart tail struck same later induction =>
      rcases List.forall_mem_cons.mp suits with ⟨suitsHead, suitsTail⟩
      rcases List.mem_cons.mp member with rfl | member
      · exact ⟨first :: struck, .cons (suitsHead same) later, .swap first second struck⟩
      · rcases induction member suitsTail with ⟨traded, matched, permuted⟩
        refine ⟨counterpart :: traded, .cons same matched, ?_⟩
        calc second :: counterpart :: traded
          _ ~ counterpart :: second :: traded := .swap counterpart second traded
          _ ~ counterpart :: first :: struck := permuted.cons counterpart
          _ ~ first :: counterpart :: struck := .swap first counterpart struck

/-- Whichever expression that fits is removed, there is one left for each of the others. -/
theorem Removes.removeEach_eq {remove : (Regex → Bool) → List Regex → Option (List Regex)}
    (removes : Removes remove) (shares : ∀ regex, regex ∈ lefts → Shares regex)
    (permuted : others.Perm order)
    (matched : List.Forall₂ (fun here there => here.same there = true) lefts order) :
    removeEach remove lefts others = some [] := by
  induction lefts generalizing others order with
  | nil =>
      cases matched
      exact congrArg some permuted.eq_nil
  | cons head tail induction =>
      rcases List.forall₂_cons_left_iff.mp matched with ⟨first, struck, same, later, rfl⟩
      have sharesTail := (List.forall_mem_cons.mp shares).2
      rw [removeEach]
      cases found : remove head.same others with
      | none =>
          have unfit := removes.missing found first (permuted.mem_iff.mpr List.mem_cons_self)
          exact absurd (same.symm.trans unfit) Bool.noConfusion
      | some middle =>
          rcases removes.found found with ⟨second, fits, removed⟩
          have left : (second :: middle).Perm (first :: struck) := removed.symm.trans permuted
          rw [Option.bind_some]
          rcases List.mem_cons.mp (left.mem_iff.mp List.mem_cons_self) with rfl | member
          · exact induction sharesTail left.cons_inv later
          · -- What was removed is the counterpart of another one, which can have `first` instead.
            have suits : ∀ regex, regex ∈ tail → regex.same second = true →
                regex.same first = true := fun regex inTail has =>
              sharesTail regex inTail head second first has fits same
            rcases exists_traded later member suits with ⟨traded, matched, trade⟩
            exact induction sharesTail (left.trans trade.symm).cons_inv matched

end Removing

theorem same_of_pairs (shares : ∀ operand, operand ∈ left.operands → Shares operand)
    (pairs : Pairs (fun here there => here.same there = true) left right) :
    left.same right = true := by
  rcases pairs with ⟨order, permuted, matched⟩
  rw [same, strike_eq_removeEach, removes_strikeFirst.removeEach_eq shares permuted matched]
  rfl

/-! ## Counterparts in common -/

theorem same_of_chain {lefts rights others lasts : List Regex}
    (shares : ∀ regex, regex ∈ lefts → Shares regex)
    (first : List.Forall₂ (fun here there => here.same there = true) lefts rights)
    (second : List.Forall₂ (fun here there => there.same here = true) rights others)
    (third : List.Forall₂ (fun here there => here.same there = true) others lasts) :
    List.Forall₂ (fun here there => here.same there = true) lefts lasts := by
  induction first generalizing others lasts with
  | nil =>
      cases second
      cases third
      exact .nil
  | cons here _ induction =>
      cases second with
      | cons back later =>
          cases third with
          | cons there rest =>
              rcases List.forall_mem_cons.mp shares with ⟨sharesHead, sharesTail⟩
              exact .cons (sharesHead _ _ _ here back there) (induction sharesTail later rest)

/-- Operands that share their counterparts make expressions that do. -/
theorem shares_of_operands (shares : ∀ operand, operand ∈ left.operands → Shares operand) :
    Shares left := by
  intro other right last first second third
  rcases pairs_of_same first with ⟨order, permuted, matched⟩
  rcases pairs_of_same second with ⟨orderOther, permutedOther, matchedOther⟩
  rcases pairs_of_same third with ⟨orderLast, permutedLast, matchedLast⟩
  rcases List.perm_comp_forall₂ (permuted.symm.trans permutedOther) matchedOther.flip with
    ⟨others, back, permutedBack⟩
  rcases List.perm_comp_forall₂ permutedBack matchedLast with ⟨lasts, there, permutedThere⟩
  exact same_of_pairs shares
    ⟨lasts, permutedLast.trans permutedThere.symm, same_of_chain shares matched back there⟩

theorem single_of_fits (fitting : left.fits right = true) :
    left.operands = [left] ∧ right.operands = [right] := by
  cases left <;> cases right <;> first | exact ⟨rfl, rfl⟩ | cases fitting

theorem single_of_same (single : right.operands = [right]) (same : left.same right = true) :
    left.operands = [left] := by
  rcases pairs_of_same same with ⟨order, permuted, matched⟩
  have count := matched.length_eq.trans permuted.length_eq.symm
  rcases operands_eq_self_or left with only | ⟨first, second, rfl⟩
  · exact only
  · rw [single] at count
    exact absurd count (one_lt_length_operands first second).ne'

/-- What is the same as an expression that is no alternative is none either. -/
theorem shares_of_single (single : left.operands = [left])
    (shares : ∀ other right last : Regex, left.fits right = true → other.fits right = true →
      other.fits last = true → left.fits last = true) : Shares left := by
  intro other right last first second third
  rw [same_eq_fits single] at first ⊢
  have singleOther := single_of_same (single_of_fits first).2 second
  rw [same_eq_fits singleOther] at second third
  exact shares other right last first second third

theorem shares_of_mem_operands {operand : Regex} (member : operand ∈ left.operands) :
    Shares operand := by
  induction left generalizing operand with
  | alternative left right inLeft inRight =>
      exact (List.mem_append.mp member).elim inLeft inRight
  | sequence first second inFirst inSecond =>
      cases List.mem_singleton.mp member
      refine shares_of_single rfl fun other right last toRight fromRight toLast => ?_
      cases right <;> try cases toRight
      cases other <;> try cases fromRight
      cases last <;> try cases toLast
      simp only [fits, Bool.and_eq_true] at toRight fromRight toLast ⊢
      exact ⟨shares_of_operands (fun _ => inFirst) _ _ _ toRight.1 fromRight.1 toLast.1,
        shares_of_operands (fun _ => inSecond) _ _ _ toRight.2 fromRight.2 toLast.2⟩
  | star body inBody =>
      cases List.mem_singleton.mp member
      refine shares_of_single rfl fun other right last toRight fromRight toLast => ?_
      cases right <;> try cases toRight
      cases other <;> try cases fromRight
      cases last <;> try cases toLast
      exact shares_of_operands (fun _ => inBody) _ _ _ toRight fromRight toLast
  | symbol | reference =>
      cases List.mem_singleton.mp member
      refine shares_of_single rfl fun other right last toRight fromRight toLast => ?_
      cases right <;> try cases toRight
      cases other <;> try cases fromRight
      cases last <;> try cases toLast
      simp only [fits, decide_eq_true_eq] at toRight fromRight toLast ⊢
      exact toRight.trans (fromRight.symm.trans toLast)
  | empty | nil =>
      cases List.mem_singleton.mp member
      refine shares_of_single rfl fun other right last toRight fromRight toLast => ?_
      cases right <;> try cases toRight
      cases other <;> try cases fromRight
      exact toLast

theorem shares (regex : Regex) : Shares regex :=
  shares_of_operands fun _ => shares_of_mem_operands

/-! ## An equivalence -/

theorem same_refl (regex : Regex) : regex.same regex = true := (takes_self regex).same

theorem same_symm (same : left.same right = true) : right.same left = true :=
  shares right left right left (same_refl right) same (same_refl left)

theorem same_trans {middle : Regex} (first : left.same middle = true)
    (second : middle.same right = true) : left.same right = true :=
  shares left middle middle right first (same_refl middle) second

theorem same_iff_pairs : left.same right = true ↔
    Pairs (fun here there => here.same there = true) left right :=
  ⟨pairs_of_same, same_of_pairs fun operand _ => shares operand⟩

/-! ## Other ways to remove operands -/

/-- It makes no difference which of the operands that fit is removed, nor what becomes of the
order of the rest. -/
theorem Removes.same_iff {remove : (Regex → Bool) → List Regex → Option (List Regex)}
    (removes : Removes remove) : left.same right = true ↔
      left.operands.length = right.operands.length ∧
        (removeEach remove left.operands right.operands).isSome = true := by
  constructor
  · intro same
    rcases pairs_of_same same with ⟨order, permuted, matched⟩
    have all := removes.removeEach_eq (fun operand _ => shares operand) permuted matched
    exact ⟨matched.length_eq.trans permuted.length_eq.symm, all ▸ rfl⟩
  · rintro ⟨count, found⟩
    rcases Option.isSome_iff_exists.mp found with ⟨rest, found⟩
    rcases removes.pairs found with ⟨struck, permuted, matched⟩
    have counted := permuted.length_eq
    rw [List.length_append, ← matched.length_eq, ← count] at counted
    have none : rest = [] := List.length_eq_zero_iff.mp (by omega)
    rw [none, List.append_nil] at permuted
    exact same_iff_pairs.mpr ⟨struck, permuted, matched⟩

/-- The last item takes the place of the one that is removed. -/
def swapRemove (items : List Regex) (index : Nat) : List Regex :=
  match items.getLast? with
  | none => []
  | some last => (items.set index last).dropLast

def removeSwapping (fitting : Regex → Bool) (others : List Regex) : Option (List Regex) :=
  (others.findIdx? fitting).map (swapRemove others)

theorem perm_swapRemove {items : List Regex} {index : Nat} (inside : index < items.length) :
    items.Perm (items[index] :: swapRemove items index) := by
  induction items using List.reverseRecOn with
  | nil => cases inside
  | append_singleton earlier last _ =>
      rw [swapRemove, List.getLast?_concat]
      dsimp only
      rw [List.length_append, List.length_singleton] at inside
      rcases Nat.lt_or_eq_of_le (Nat.le_of_lt_succ inside) with before | rfl
      · rw [List.set_append_left _ _ before, List.dropLast_concat, List.getElem_append_left before]
        calc earlier ++ [last]
          _ ~ last :: earlier := List.perm_append_singleton last earlier
          _ ~ last :: earlier[index] :: earlier.eraseIdx index :=
            (List.getElem_cons_eraseIdx_perm before).symm.cons last
          _ ~ earlier[index] :: last :: earlier.eraseIdx index := .swap _ _ _
          _ ~ earlier[index] :: earlier.set index last :=
            (List.set_perm_cons_eraseIdx before last).symm.cons _
      · rw [List.set_append_right _ _ (Nat.le_refl _), Nat.sub_self, List.set_cons_zero,
          List.dropLast_concat, List.getElem_concat_length rfl]
        exact List.perm_append_singleton last earlier

theorem removes_removeSwapping : Removes removeSwapping where
  found found := by
    rcases Option.map_eq_some_iff.mp found with ⟨index, first, rfl⟩
    rcases List.findIdx?_eq_some_iff_getElem.mp first with ⟨inside, fits, -⟩
    exact ⟨_, fits, perm_swapRemove inside⟩
  missing missing other member :=
    List.findIdx?_eq_none_iff.mp (Option.map_eq_none_iff.mp missing) other member

/-! ## Runs -/

theorem rests_eq_of_same (same : left.same right = true) (text : List Char) :
    rests left text = rests right text := by
  have members (rest : List Char) : rest ∈ rests left text ↔ rest ∈ rests right text := by
    have alike (piece : List Char) : left.MatchesText piece ↔ right.MatchesText piece :=
      iff_of_eq (congrArg (piece ∈ ·) (language_eq_of_same same))
    rw [mem_rests_iff, mem_rests_iff]
    exact exists_congr fun piece => and_congr_left fun _ => alike piece
  have permuted := (List.perm_ext_iff_of_nodup (descending_rests left text).nodup
    (descending_rests right text).nodup).mpr members
  refine permuted.eq_of_pairwise (fun _ _ _ _ shorter longer => ?_) (descending_rests left text)
    (descending_rests right text)
  exact absurd shorter longer.asymm

/-- Sameness is an equivalence, and expressions that are the same leave over the same rests.
Alternatives are the same if some order of the operands of one of them matches the operands of
the other in pairs; it is enough to look for the first match of each, and to fill the gap that it
leaves behind with the last operand. -/
theorem same_equivalence :
    Equivalence (fun left right : Regex => left.same right = true) ∧
    (∀ left right : Regex, left.same right = true ↔
      ∃ order, right.operands.Perm order ∧
        List.Forall₂ (fun here there => here.same there = true) left.operands order) ∧
    (∀ left right : Regex, left.same right = true ↔
      left.operands.length = right.operands.length ∧
        (removeEach removeSwapping left.operands right.operands).isSome = true) ∧
    ∀ left right : Regex, left.same right = true → ∀ input, left.run input = right.run input := by
  refine ⟨⟨same_refl, same_symm, same_trans⟩, fun left right => same_iff_pairs,
    fun left right => removes_removeSwapping.same_iff, fun left right same input => ?_⟩
  rw [run, run, rests_eq_of_same same]

end FormalLanguages.Regex
