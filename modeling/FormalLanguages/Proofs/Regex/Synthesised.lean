import FormalLanguages.Proofs.Regex.Synthesis

namespace FormalLanguages.Regex

/-! # States and edges of synthesised automata

The states are numbered, and there are edges unless the expression is a sequence of expressions
without matches. -/

/-- A sequence of nothing but `∅`. -/
def Barren (regex : Regex) : Prop := ∀ factor, factor ∈ regex.factors → factor = empty

theorem barren_sequence_iff {first second : Regex} :
    (sequence first second).Barren ↔ first.Barren ∧ second.Barren := by
  rw [Barren, factors, List.forall_mem_append]
  rfl

namespace Synthesis

variable {builder : Builder} {place : Place} {regex : Regex} {state : String} {edge : Edge}

/-! ## Edges are only added -/

def Keeps (before after : Builder) : Prop :=
  ∀ state edge, edge ∈ before.automaton.edges state → edge ∈ after.automaton.edges state

theorem Keeps.trans {before middle after : Builder} (first : Keeps before middle)
    (second : Keeps middle after) : Keeps before after :=
  fun state edge member => second state edge (first state edge member)

theorem edges_fresh (builder : Builder) (state : String) :
    builder.fresh.2.automaton.edges state = builder.automaton.edges state :=
  Automaton.edges_declareState ..

theorem edges_openAt (builder : Builder) (place : Place) (state : String) :
    (builder.openAt place).2.automaton.edges state = builder.automaton.edges state := by
  cases place with
  | between => rfl
  | beside => exact (edges_fresh _ state).trans (edges_fresh _ state)
  | after tail? =>
      cases tail? with
      | none => exact edges_fresh _ state
      | some => rfl

theorem mem_edges_connect (builder : Builder) (source : String) (label : Label) (target : String) :
    Edge.mk label target ∈ (builder.connect source label target).automaton.edges source :=
  (Automaton.mem_edges_withTransition ..).mpr (.inl ⟨rfl, rfl⟩)

theorem keeps_connect (builder : Builder) (source : String) (label : Label) (target : String) :
    Keeps builder (builder.connect source label target) :=
  fun _ _ member => (Automaton.mem_edges_withTransition ..).mpr (.inr member)

theorem keeps_of_openAt {ends : Ends} {opened : Builder}
    (opens : builder.openAt place = (ends, opened)) : Keeps builder opened := fun state _ member => by
  rw [← edges_openAt builder place state, opens] at member
  exact member

theorem keeps_closeAt (builder : Builder) (regex : Regex) (ends : Ends) (place : Place) :
    Keeps builder (builder.closeAt regex ends place) := by
  cases place with
  | between => exact fun _ _ => id
  | after => exact fun _ _ => id
  | beside head tail =>
      exact (keeps_connect _ head .epsilon ends.head).trans (keeps_connect _ ends.tail .epsilon tail)

theorem keeps_freshEnds {ends : Ends} {opened : Builder}
    (opens : builder.freshEnds = (ends, opened)) : Keeps builder opened := by
  have beside : builder.openAt (.beside ends.head ends.tail) = (ends, opened) := opens
  exact keeps_of_openAt beside

theorem keeps_wire (regex : Regex) (place : Place) (builder : Builder) :
    Keeps builder (wire regex place builder) := by
  fun_induction wire regex place builder with
  | case1 left right head tail builder inLeft inRight => exact inLeft.trans inRight
  | case2 left right place builder _ ends opened opens _ _ inLeft inRight =>
      exact (keeps_of_openAt opens).trans
        ((inLeft.trans inRight).trans (keeps_closeAt _ _ ends place))
  | case3 first second tail? builder inFirst inSecond => exact inFirst.trans inSecond
  | case4 first second place builder _ ends opened opens _ _ inFirst inSecond =>
      have starts : Keeps opened { opened with reached := ends.head } := fun _ _ => id
      exact (keeps_of_openAt opens).trans
        ((starts.trans (inFirst.trans inSecond)).trans (keeps_closeAt _ _ ends place))
  | case5 body place builder ends opened opens inner between opensInner _ _ _ inBody =>
      refine (keeps_of_openAt opens).trans ((keeps_freshEnds opensInner).trans
        (inBody.trans (Keeps.trans ?_ (keeps_closeAt _ _ ends place))))
      exact ((keeps_connect _ _ _ _).trans (keeps_connect _ _ _ _)).trans
        ((keeps_connect _ _ _ _).trans (keeps_connect _ _ _ _))
  | case6 name place builder ends opened opens | case7 name place builder ends opened opens =>
      exact (keeps_of_openAt opens).trans
        ((keeps_connect _ _ _ _).trans (keeps_closeAt _ _ ends place))
  | case8 place builder ends opened opens =>
      exact (keeps_of_openAt opens).trans
        ((keeps_connect _ _ _ _).trans (keeps_closeAt _ _ ends place))
  | case9 place builder ends opened opens =>
      exact (keeps_of_openAt opens).trans (keeps_closeAt _ _ ends place)

/-! ## Where an edge is added -/

def HasEdge (builder : Builder) : Prop := ∃ state edge, edge ∈ builder.automaton.edges state

theorem HasEdge.keeps {before after : Builder} (has : HasEdge before) (keeps : Keeps before after) :
    HasEdge after :=
  has.imp fun state => Exists.imp fun edge => keeps state edge

theorem hasEdge_connect (builder : Builder) (source : String) (label : Label) (target : String) :
    HasEdge (builder.connect source label target) :=
  ⟨source, _, mem_edges_connect builder source label target⟩

theorem hasEdge_closeAt_beside (builder : Builder) (regex : Regex) (ends : Ends)
    (head tail : String) : HasEdge (builder.closeAt regex ends (.beside head tail)) :=
  hasEdge_connect _ ends.tail .epsilon tail

theorem hasEdge_wire (regex : Regex) (place : Place) (builder : Builder)
    (fertile : regex.Barren → ∃ head tail, place = .beside head tail) :
    HasEdge (wire regex place builder) := by
  fun_induction wire regex place builder with
  | case1 left right head tail builder inLeft inRight => exact inRight fun _ => ⟨head, tail, rfl⟩
  | case2 left right place builder _ ends opened opens _ _ inLeft inRight =>
      exact (inRight fun _ => ⟨_, _, rfl⟩).keeps (keeps_closeAt _ _ ends place)
  | case3 first second tail? builder inFirst inSecond =>
      by_cases barren : first.Barren
      · refine inSecond fun other => ?_
        rcases fertile (barren_sequence_iff.mpr ⟨barren, other⟩) with ⟨_, _, same⟩
        cases same
      · exact (inFirst (absurd · barren)).keeps (keeps_wire second _ _)
  | case4 first second place builder _ ends opened opens _ _ inFirst inSecond =>
      by_cases barren : first.Barren
      · by_cases other : second.Barren
        · rcases fertile (barren_sequence_iff.mpr ⟨barren, other⟩) with ⟨head, tail, rfl⟩
          exact hasEdge_closeAt_beside _ _ _ head tail
        · exact (inSecond (absurd · other)).keeps (keeps_closeAt _ _ ends place)
      · exact ((inFirst (absurd · barren)).keeps (keeps_wire second _ _)).keeps
          (keeps_closeAt _ _ ends place)
  | case5 body place builder ends opened opens inner between opensInner _ _ _ inBody =>
      exact (hasEdge_connect _ _ _ _).keeps (keeps_closeAt _ _ ends place)
  | case6 name place builder ends opened opens | case7 name place builder ends opened opens =>
      exact (hasEdge_connect _ _ _ _).keeps (keeps_closeAt _ _ ends place)
  | case8 place builder ends opened opens =>
      exact (hasEdge_connect _ _ _ _).keeps (keeps_closeAt _ _ ends place)
  | case9 place builder ends opened opens =>
      rcases fertile (fun factor member => List.mem_singleton.mp member) with ⟨head, tail, rfl⟩
      exact hasEdge_closeAt_beside _ _ _ head tail

theorem edges_closeAt (builder : Builder) (regex : Regex) (ends : Ends)
    (apart : ∀ head tail, place ≠ .beside head tail) (state : String) :
    (builder.closeAt regex ends place).automaton.edges state = builder.automaton.edges state := by
  cases place with
  | between => rfl
  | after => rfl
  | beside head tail => exact absurd rfl (apart head tail)

/-- Between states and after them, only states are added for what is barren. -/
theorem edges_wire_of_barren (barren : regex.Barren)
    (apart : ∀ head tail, place ≠ .beside head tail) (state : String) :
    (wire regex place builder).automaton.edges state = builder.automaton.edges state := by
  induction regex generalizing place builder with
  | empty => exact (edges_closeAt _ _ _ apart state).trans (edges_openAt builder place state)
  | sequence first second inFirst inSecond =>
      rcases barren_sequence_iff.mp barren with ⟨barrenFirst, barrenSecond⟩
      have chained (builder : Builder) (tail? : Option String) :
          (wire second (.after tail?) (wire first (.after none) builder)).automaton.edges state =
            builder.automaton.edges state :=
        (inSecond barrenSecond fun _ _ same => Place.noConfusion same).trans
          (inFirst barrenFirst fun _ _ same => Place.noConfusion same)
      cases place with
      | after tail? => exact chained builder tail?
      | beside head tail => exact absurd rfl (apart head tail)
      | between head tail => exact chained { builder with reached := head } (some tail)
  | _ => cases barren _ List.mem_cons_self

/-! ## Names of states -/

theorem stem_openAt (builder : Builder) (place : Place) :
    (builder.openAt place).2.supply.stem = builder.supply.stem := by
  cases place with
  | between => rfl
  | beside => rfl
  | after tail? => cases tail? <;> rfl

theorem stem_of_openAt {ends : Ends} {opened : Builder}
    (opens : builder.openAt place = (ends, opened)) : opened.supply.stem = builder.supply.stem := by
  rw [← stem_openAt builder place, opens]

theorem stem_closeAt (builder : Builder) (regex : Regex) (ends : Ends) (place : Place) :
    (builder.closeAt regex ends place).supply.stem = builder.supply.stem := by
  cases place <;> rfl

theorem stem_wire (regex : Regex) (place : Place) (builder : Builder) :
    (wire regex place builder).supply.stem = builder.supply.stem := by
  fun_induction wire regex place builder with
  | case1 left right head tail builder inLeft inRight => exact inRight.trans inLeft
  | case2 left right place builder _ ends opened opens _ _ inLeft inRight =>
      exact (stem_closeAt _ _ ends place).trans
        (inRight.trans (inLeft.trans (stem_of_openAt opens)))
  | case3 first second tail? builder inFirst inSecond => exact inSecond.trans inFirst
  | case4 first second place builder _ ends opened opens _ _ inFirst inSecond =>
      have start : opened.supply.stem = builder.supply.stem := stem_of_openAt opens
      exact (stem_closeAt _ _ ends place).trans (inSecond.trans (inFirst.trans start))
  | case5 body place builder ends opened opens inner between opensInner _ _ _ inBody =>
      have beside : opened.openAt (.beside inner.head inner.tail) = (inner, between) := opensInner
      have innerStem := stem_of_openAt beside
      exact (stem_closeAt _ _ ends place).trans
        (inBody.trans (innerStem.trans (stem_of_openAt opens)))
  | case6 name place builder ends opened opens | case7 name place builder ends opened opens =>
      have start : opened.supply.stem = builder.supply.stem := stem_of_openAt opens
      exact (stem_closeAt _ _ ends place).trans start
  | case8 place builder ends opened opens =>
      have start : opened.supply.stem = builder.supply.stem := stem_of_openAt opens
      exact (stem_closeAt _ _ ends place).trans start
  | case9 place builder ends opened opens =>
      exact (stem_closeAt _ _ ends place).trans (stem_of_openAt opens)

end Synthesis

open Synthesis

theorem exists_number_of_mem_states {regex : Regex} {state : String}
    (declared : state ∈ (synthesise regex).result.states) :
    ∃ number, state = Name.numbered stateStem number := by
  rcases (wired_synthesise regex).ready.numbers state declared with ⟨number, _, same⟩
  rw [stem_wire] at same
  exact ⟨number, same⟩

/-- Only sequences of expressions without matches become automata without edges. -/
theorem no_edges_synthesise_iff {regex : Regex} :
    (∀ state edge, ¬ edge ∈ (synthesise regex).result.edges state) ↔ regex.Barren := by
  rw [result_synthesise]
  constructor
  · intro none
    by_contra fertile
    rcases hasEdge_wire regex (.between supply.fresh supply.advance.fresh) (blankBuilder regex)
      (absurd · fertile) with ⟨state, edge, member⟩
    exact none state edge member
  · intro barren state edge member
    rw [edges_wire_of_barren barren fun _ _ same => Place.noConfusion same] at member
    exact not_mem_edges_blank regex state edge member

theorem Barren.names_eq_nil {regex : Regex} (barren : regex.Barren) : regex.names = [] := by
  induction regex with
  | empty => rfl
  | sequence first second inFirst inSecond =>
      rcases barren_sequence_iff.mp barren with ⟨left, right⟩
      rw [names, inFirst left, inSecond right, List.append_nil]
  | _ => cases barren _ List.mem_cons_self

end FormalLanguages.Regex
