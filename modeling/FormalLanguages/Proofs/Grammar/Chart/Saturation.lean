import FormalLanguages.Proofs.Collection.Members
import FormalLanguages.Proofs.Collection.Parts
import FormalLanguages.Proofs.Grammar.Chart.Splits
import FormalLanguages.Proofs.Grammar.Meanings

namespace FormalLanguages.Grammar.Chart

/-! # Saturating a part

Attempts only add to the chart, and what they add rests on what was there before. In the end a
part is closed under the alternatives: a pass finds nothing, or all heads are there. So the chart
holds what derives the part, however often it is derived through itself. -/

variable {grammar : Grammar} {chart next : Chart} {production : String × List (Alternative × Nat)}
  {productions : List (String × List (Alternative × Nat))} {name : String} {first last : Nat}

def Charted (chart : Chart) (name : String) (first last : Nat) : Prop :=
  (chart.get? ⟨name, first, last⟩).isSome = true

theorem not_charted_iff : ¬ Charted chart name first last ↔ chart.get? ⟨name, first, last⟩ = none :=
  Option.not_isSome_iff_eq_none

/-! ## Larger charts -/

structure Extends (chart next : Chart) : Prop where
  grammar : next.grammar = chart.grammar
  input : next.input = chart.input
  kept : ∀ span split, chart.get? span = some split → next.get? span = some split

namespace Extends

theorem refl (chart : Chart) : Extends chart chart := ⟨rfl, rfl, fun _ _ => id⟩

theorem trans {other : Chart} (before : Extends chart next) (after : Extends next other) :
    Extends chart other where
  grammar := after.grammar.trans before.grammar
  input := after.input.trans before.input
  kept span split known := after.kept span split (before.kept span split known)

theorem record {span : Span} (new : chart.get? span = none) (split : Split) :
    Extends chart (chart.record span split) where
  grammar := rfl
  input := rfl
  kept other found known := by
    have different : span ≠ other := by
      rintro rfl
      exact Option.some_ne_none found (known.symm.trans new)
    rw [get?_record, if_neg different, known]

theorem charted (larger : Extends chart next) (charted : Charted chart name first last) :
    Charted next name first last := by
  rcases Option.isSome_iff_exists.mp charted with ⟨split, known⟩
  exact Option.isSome_of_eq_some (larger.kept _ split known)

end Extends

theorem charted_record {span : Span} {split : Split} :
    Charted (chart.record span split) name first last ↔
      span = ⟨name, first, last⟩ ∨ Charted chart name first last := by
  rw [Charted, get?_record]
  split
  case isTrue same => exact iff_of_true rfl (.inl same)
  case isFalse different => exact (or_iff_right different).symm

/-! ## What one attempt does -/

/-- A head is charted if one of its alternatives can be split. -/
def Settled (chart : Chart) (first last : Nat) (production : String × List (Alternative × Nat)) :
    Prop :=
  ∀ choice, choice ∈ production.2 → (∃ ends, Ends chart choice.1 first last ends) →
    Charted chart production.1 first last

inductive Tried (first last : Nat) (chart : Chart)
    (production : String × List (Alternative × Nat)) : Chart → Prop
  | settled (settled : Settled chart first last production) :
      Tried first last chart production chart
  | found {choice : Alternative × Nat} {ends : List Nat}
      (new : chart.get? ⟨production.1, first, last⟩ = none) (member : choice ∈ production.2)
      (known : Ends chart choice.1 first last ends) :
      Tried first last chart production
        (chart.record ⟨production.1, first, last⟩ ⟨choice.2, ends⟩)

theorem tried_tryHead (first last : Nat) (chart : Chart)
    (production : String × List (Alternative × Nat)) :
    Tried first last chart production (tryHead first last chart production) := by
  rw [tryHead]
  split
  case isTrue charted => exact .settled fun _ _ _ => charted
  case isFalse unknown =>
    split
    case h_1 none =>
      refine .settled fun choice member derivable => ?_
      have missing := List.findSome?_eq_none_iff.mp none choice member
      rw [derive?, Option.map_eq_none_iff] at missing
      have found := isSome_split?_iff.mpr derivable
      rw [missing] at found
      cases found
    case h_2 split found =>
      rcases List.exists_of_findSome?_eq_some found with ⟨choice, member, derived⟩
      rcases Option.map_eq_some_iff.mp derived with ⟨ends, known, rfl⟩
      exact .found (Option.not_isSome_iff_eq_none.mp unknown) member (ends_of_split? known)

namespace Tried

theorem larger (tried : Tried first last chart production next) : Extends chart next := by
  cases tried with
  | settled => exact .refl chart
  | found new => exact .record new _

theorem length_le (tried : Tried first last chart production next) :
    chart.derived.length ≤ next.derived.length := by
  cases tried with
  | settled => exact Nat.le_refl _
  | found => exact Nat.le_succ _

theorem eq_of_settled (tried : Tried first last chart production next)
    (settled : Settled chart first last production) : next = chart := by
  cases tried with
  | settled => rfl
  | found new member known =>
      exact absurd (settled _ member ⟨_, known⟩) (not_charted_iff.mpr new)

theorem settled_of_length_eq (tried : Tried first last chart production next)
    (same : next.derived.length = chart.derived.length) :
    next = chart ∧ Settled chart first last production := by
  cases tried with
  | settled settled => exact ⟨rfl, settled⟩
  | found => exact absurd same (Nat.succ_ne_self _)

end Tried

/-! ## What passes do -/

theorem length_le_foldl (first last : Nat)
    (productions : List (String × List (Alternative × Nat))) (chart : Chart) :
    chart.derived.length ≤ (productions.foldl (tryHead first last) chart).derived.length := by
  induction productions generalizing chart with
  | nil => exact Nat.le_refl _
  | cons production rest induction =>
      exact Nat.le_trans (tried_tryHead first last chart production).length_le (induction _)

/-- A pass that finds nothing has tried every production on the same chart. -/
theorem settled_of_pass (same : (productions.foldl (tryHead first last) chart).derived.length =
    chart.derived.length) :
    ∀ production, production ∈ productions → Settled chart first last production := by
  induction productions with
  | nil => exact fun _ none => absurd none List.not_mem_nil
  | cons production rest induction =>
      have grows := length_le_foldl first last rest (tryHead first last chart production)
      have tried := tried_tryHead first last chart production
      rw [List.foldl_cons] at same
      rcases tried.settled_of_length_eq (Nat.le_antisymm (same ▸ grows) tried.length_le) with
        ⟨unchanged, settled⟩
      rw [unchanged] at same
      exact List.forall_mem_cons.mpr ⟨settled, induction same⟩

theorem pass_keeps (holds : Chart → Prop)
    (step : ∀ chart production next, production ∈ productions → holds chart →
      Tried first last chart production next → holds next) (before : holds chart) :
    holds (productions.foldl (tryHead first last) chart) :=
  List.foldlRecOn (motive := holds) productions _ before
    fun chart known production member => step chart production _ member known (tried_tryHead ..)

/-- What every attempt keeps is kept by saturating. -/
theorem saturate_keeps (holds : Chart → Prop)
    (step : ∀ chart production next, production ∈ productions → holds chart →
      Tried first last chart production next → holds next) {passes : Nat} (before : holds chart) :
    holds (saturate productions first last passes chart) := by
  induction passes generalizing chart with
  | zero => exact before
  | succ passes induction =>
      rw [saturate]
      split
      · exact before
      · exact induction (pass_keeps holds step before)

/-- Of the part, the chart holds these heads more than before. They are found once, and only those
of productions. -/
structure Finds (productions : List (String × List (Alternative × Nat))) (first last size : Nat)
    (heads : List String) (chart : Chart) : Prop where
  size : chart.derived.length = heads.length + size
  nodup : heads.Nodup
  produced : ∀ head, head ∈ heads → head ∈ productions.map Prod.fst
  charted : ∀ head, head ∈ heads → Charted chart head first last

namespace Finds

variable {size : Nat} {heads : List String}

theorem attempt (finds : Finds productions first last size heads chart)
    (member : production ∈ productions) (tried : Tried first last chart production next) :
    ∃ heads, Finds productions first last size heads next := by
  cases tried with
  | settled => exact ⟨heads, finds⟩
  | found new =>
      have fresh : production.1 ∉ heads := fun inside =>
        not_charted_iff.mpr new (finds.charted _ inside)
      refine ⟨production.1 :: heads, ?_, List.nodup_cons.mpr ⟨fresh, finds.nodup⟩, ?_, ?_⟩
      · exact (congrArg (· + 1) finds.size).trans (Nat.add_right_comm ..)
      · exact List.forall_mem_cons.mpr ⟨List.mem_map_of_mem member, finds.produced⟩
      · refine List.forall_mem_cons.mpr ⟨charted_record.mpr (.inl rfl), fun head inside => ?_⟩
        exact charted_record.mpr (.inr (finds.charted head inside))

/-- Once there are as many heads as productions, every head is there. -/
theorem settled_of_full (finds : Finds productions first last size heads chart)
    (full : productions.length ≤ heads.length) (member : production ∈ productions) :
    Settled chart first last production := by
  refine fun _ _ _ => Classical.byContradiction fun unknown => ?_
  have new : production.1 ∉ heads := fun inside => unknown (finds.charted _ inside)
  have fits : (production.1 :: heads).length ≤ (productions.map Prod.fst).length := by
    apply Reachable.length_le_of_nodup (List.nodup_cons.mpr ⟨new, finds.nodup⟩)
    exact List.forall_mem_cons.mpr ⟨List.mem_map_of_mem member, finds.produced⟩
  rw [List.length_cons, List.length_map] at fits
  omega

theorem settled_saturate {passes : Nat} (finds : Finds productions first last size heads chart)
    (enough : productions.length ≤ heads.length + passes) (member : production ∈ productions) :
    Settled (saturate productions first last passes chart) first last production := by
  induction passes generalizing chart heads with
  | zero => exact finds.settled_of_full enough member
  | succ passes induction =>
      rw [saturate]
      split
      case isTrue same => exact settled_of_pass same production member
      case isFalse different =>
        have grows := length_le_foldl first last productions chart
        rcases pass_keeps (fun chart => ∃ heads, Finds productions first last size heads chart)
          (fun _ _ _ member known tried => known.elim fun _ finds => finds.attempt member tried)
          ⟨heads, finds⟩ with ⟨later, found⟩
        have before := finds.size
        have after := found.size
        exact induction found (by omega)

end Finds

theorem settled_saturate (chart : Chart) (first last : Nat) (member : production ∈ productions) :
    Settled (saturate productions first last productions.length chart) first last production := by
  have none : Finds productions first last chart.derived.length [] chart :=
    ⟨(Nat.zero_add _).symm, List.nodup_nil, fun _ none => absurd none List.not_mem_nil,
      fun _ none => absurd none List.not_mem_nil⟩
  exact none.settled_saturate (Nat.le_add_left _ _) member

/-- As many passes as there are productions are enough: one more finds nothing. -/
theorem pass_saturate (chart : Chart) (first last : Nat) :
    productions.foldl (tryHead first last)
        (saturate productions first last productions.length chart) =
      saturate productions first last productions.length chart := by
  refine pass_keeps (fun next => next = saturate productions first last productions.length chart)
    (fun next production after member same tried => ?_) rfl
  cases same
  exact tried.eq_of_settled (settled_saturate chart first last member)

/-! ## The order of the alternatives -/

theorem mem_insertLonger {choice other : Alternative × Nat} {choices : List (Alternative × Nat)} :
    other ∈ insertLonger choice choices ↔ other = choice ∨ other ∈ choices := by
  induction choices with
  | nil => exact List.mem_cons
  | cons head tail induction =>
      rw [insertLonger]
      split
      · rw [List.mem_cons, induction, List.mem_cons, or_left_comm]
      · exact List.mem_cons

theorem mem_foldr_insertLonger {choice : Alternative × Nat} {choices : List (Alternative × Nat)} :
    choice ∈ choices.foldr insertLonger [] ↔ choice ∈ choices := by
  induction choices with
  | nil => rfl
  | cons head tail induction =>
      rw [List.foldr_cons, mem_insertLonger, List.mem_cons]
      exact or_congr_right induction

theorem mem_longestFirst {choice : Alternative × Nat} {alternatives : List Alternative} :
    choice ∈ longestFirst alternatives ↔ alternatives[choice.2]? = some choice.1 :=
  mem_foldr_insertLonger.trans List.mem_zipIdx_iff_getElem?

theorem mem_order_iff : production ∈ order grammar ↔
    ∃ alternatives, grammar.productions.get? production.1 = some alternatives ∧
      production.2 = longestFirst alternatives := by
  rw [order, List.mem_map]
  constructor
  · rintro ⟨⟨head, alternatives⟩, inside, rfl⟩
    exact ⟨alternatives, DeclaredMap.get?_eq_some_iff.mpr inside, rfl⟩
  · rintro ⟨alternatives, known, same⟩
    exact ⟨(production.1, alternatives), DeclaredMap.get?_eq_some_iff.mp known, by rw [← same]⟩

theorem getElem?_of_mem_order {choice : Alternative × Nat} (member : production ∈ order grammar)
    (inside : choice ∈ production.2) :
    (grammar.alternatives production.1)[choice.2]? = some choice.1 := by
  rcases mem_order_iff.mp member with ⟨alternatives, known, same⟩
  rw [Grammar.alternatives, known, Option.getD_some]
  exact mem_longestFirst.mp (same ▸ inside)

theorem exists_mem_order {alternative : Alternative}
    (member : alternative ∈ grammar.alternatives name) :
    ∃ production, production ∈ order grammar ∧ production.1 = name ∧
      ∃ choice, choice ∈ production.2 ∧ choice.1 = alternative := by
  rcases mem_alternatives_iff.mp member with ⟨alternatives, known, inside⟩
  rcases List.getElem?_of_mem inside with ⟨position, found⟩
  exact ⟨(name, longestFirst alternatives), mem_order_iff.mpr ⟨alternatives, known, rfl⟩, rfl,
    (alternative, position), mem_longestFirst.mpr found, rfl⟩

end FormalLanguages.Grammar.Chart
