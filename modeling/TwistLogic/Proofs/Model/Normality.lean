import TwistLogic.Proofs.Algebra.Implication
import TwistLogic.Proofs.Model.Verdict

/-!
# Modalities are normal

The implication from a weight turns a meet into a meet, and the greatest lower bound of meets is the
meet of the greatest lower bounds (`TwistStructure.Lawful.isGlb_meet`).  So a box over a conjunction
has a value exactly where the conjunction of the two boxes has one, and it is the same value
(`Formula.hasValue_box_and_iff`).

A weight implies absolute truth whatever it is, and its meet with absolute falsity is absolute
falsity.  So a modality over its vacuous value has this value again, whatever the transitions
(`Formula.hasValue_modal_vacuous`), and boxes keep validity.

There is no such law for a diamond over a disjunction: where the lattice is not distributive, the
meet with a weight does not distribute over joins.
-/

namespace TwistLogic

/-! ## Bounds and weights -/

namespace TwistStructure.Lawful

variable {ts : TwistStructure} {ι : Type} {is : List ι} {f g h : ι → TwistElement}
  {x y : TwistElement}

/-- The meet of two greatest lower bounds is that of the meets. -/
lemma isGlb_meet (hts : ts.Lawful) (hf : ∀ i ∈ is, ts.contains (f i) = true)
    (hg : ∀ i ∈ is, ts.contains (g i) = true) (hfg : ∀ i ∈ is, h i = ts.meet (f i) (g i))
    (hx : ts.IsGlb {a | ∃ i ∈ is, a = f i} x) (hy : ts.IsGlb {a | ∃ i ∈ is, a = g i} y) :
    ts.IsGlb {a | ∃ i ∈ is, a = h i} (ts.meet x y) := by
  have horder := hts.truthOrder
  have hxy := hts.contains_meet hx.contains hy.contains
  have hbelow : ∀ z, ts.contains z = true → ∀ i ∈ is,
      (ts.leq z (h i) = true ↔ ts.leq z (f i) = true ∧ ts.leq z (g i) = true) := by
    intro z hz i hi
    rw [hfg i hi, horder.le_inf_iff (hf i hi) (hg i hi) hz]
  refine ⟨hxy, ?_, fun z hz hall => ?_⟩
  · rintro _ ⟨i, hi, rfl⟩
    rw [hbelow _ hxy i hi]
    constructor
    · exact hts.leq_trans hxy hx.contains (hf i hi) (horder.inf_left hx.contains hy.contains)
        (hx.bound _ ⟨i, hi, rfl⟩)
    · exact hts.leq_trans hxy hy.contains (hg i hi) (horder.inf_right hx.contains hy.contains)
        (hy.bound _ ⟨i, hi, rfl⟩)
  · rw [horder.le_inf_iff hx.contains hy.contains hz]
    constructor
    · refine hx.best z hz ?_
      rintro _ ⟨i, hi, rfl⟩
      exact ((hbelow z hz i hi).mp (hall _ ⟨i, hi, rfl⟩)).1
    · refine hy.best z hz ?_
      rintro _ ⟨i, hi, rfl⟩
      exact ((hbelow z hz i hi).mp (hall _ ⟨i, hi, rfl⟩)).2

end TwistStructure.Lawful

/-- Of a vacuous value, a transition makes a vacuous contribution. -/
lemma Modality.term_vacuous {ts : TwistStructure} (hts : ts.Lawful) (mod : Modality)
    {weight : TwistElement} (hweight : ts.contains weight = true) :
    mod.term ts weight (mod.vacuous ts) = mod.vacuous ts := by
  cases mod with
  | box => exact hts.implication_absoluteTrue hweight
  | diamond =>
    have hcomm := hts.truthOrder.inf_comm hweight hts.contains_absoluteFalse
    exact hcomm.trans (hts.absoluteFalse_meet hweight)

/-! ## Meanings -/

namespace Formula

variable {m : Model} {φ ψ : Formula} {action : Text} {w : WorldIndex} {x : TwistElement}

/-- The meet of the values of two boxes is a value of the box over the conjunction. -/
lemma HasValue.box_and (hts : m.twist.Lawful) (hm : m.WellFormed)
    (h : (binary .and (modal .box action φ) (modal .box action ψ)).HasValue m w x) :
    (modal .box action (binary .and φ ψ)).HasValue m w x := by
  obtain ⟨a, b, ha, hb, rfl⟩ := hasValue_binary_iff.mp h
  obtain ⟨haction, y, hy, ha⟩ := hasValue_modal_iff.mp ha
  obtain ⟨-, z, hz, hb⟩ := hasValue_modal_iff.mp hb
  have hweight := hm.weight_mem w action
  have hmemy := fun tr htr => (hy tr htr).contains hts hm
  have hmemz := fun tr htr => (hz tr htr).contains hts hm
  refine .box (v := fun u => m.twist.meet (y u) (z u)) haction
    (fun tr htr => .and (hy tr htr) (hz tr htr)) ?_
  refine hts.isGlb_meet ?_ ?_ ?_ ha hb
  · exact fun tr htr => hts.contains_implication (hweight tr htr) (hmemy tr htr)
  · exact fun tr htr => hts.contains_implication (hweight tr htr) (hmemz tr htr)
  · exact fun tr htr => hts.implication_meet (hweight tr htr) (hmemy tr htr) (hmemz tr htr)

/-- A box over a conjunction has the value of the conjunction of the boxes. -/
theorem hasValue_box_and_iff (hts : m.twist.Lawful) (hm : m.WellFormed) :
    (modal .box action (binary .and φ ψ)).HasValue m w x ↔
      (binary .and (modal .box action φ) (modal .box action ψ)).HasValue m w x := by
  refine ⟨fun h => ?_, HasValue.box_and hts hm⟩
  obtain ⟨haction, v, hv, -⟩ := hasValue_modal_iff.mp h
  have hφ : ∀ tr ∈ m.successors w action, ∃ a, φ.HasValue m tr.target a := by
    intro tr htr
    obtain ⟨a, -, ha, -⟩ := hasValue_binary_iff.mp (hv tr htr)
    exact ⟨a, ha⟩
  have hψ : ∀ tr ∈ m.successors w action, ∃ b, ψ.HasValue m tr.target b := by
    intro tr htr
    obtain ⟨-, b, -, hb, -⟩ := hasValue_binary_iff.mp (hv tr htr)
    exact ⟨b, hb⟩
  obtain ⟨y, hy⟩ := exists_values_at_targets (P := φ.HasValue m) hφ
  obtain ⟨z, hz⟩ := exists_values_at_targets (P := ψ.HasValue m) hψ
  have hboxes := HasValue.and (.box haction hy (isBest_gather_terms hts hm .box hy))
    (.box haction hz (isBest_gather_terms hts hm .box hz))
  -- the boxes have some values, and their meet is the value of the box over the conjunction
  rw [h.unique hts hm (hboxes.box_and hts hm)]
  exact hboxes

/-- Where all successors have the vacuous value, the modality has it too. -/
theorem hasValue_modal_vacuous (hts : m.twist.Lawful) (hm : m.WellFormed) {mod : Modality}
    (haction : m.hasAction action = true)
    (hφ : ∀ tr ∈ m.successors w action, φ.HasValue m tr.target (mod.vacuous m.twist)) :
    (modal mod action φ).HasValue m w (mod.vacuous m.twist) := by
  refine hasValue_modal_iff.mpr ⟨haction, fun _ => mod.vacuous m.twist, hφ, ?_⟩
  refine mod.isBest_vacuous hts ?_
  rintro _ ⟨tr, htr, rfl⟩
  exact mod.term_vacuous hts (hm.weight_mem w action tr htr)

end Formula

/-! ## Answers -/

namespace Evaluator

/-- At all worlds, by their numbers and by their names, coherent evaluators answer with the
element. -/
def AlwaysAnswers (s : FormulaStore) (m : Model) (id : FormulaId) (x : TwistElement) : Prop :=
  ∀ ev : Evaluator, ev.Coherent s m →
    (∀ w < m.worlds.size, (ev.ask (evaluateAt s m id w)).1 = .ok x) ∧
    ∀ world w, m.findWorld? world = some w → (ev.ask (evaluate s m id world)).1 = .ok x

/-- The modalities of an action are normal. -/
structure NormalAnswers (s : FormulaStore) (m : Model) (action : Text) : Prop where
  /-- A box over a conjunction is evaluated successfully exactly if the conjunction of the boxes is,
  and then to the same value. -/
  box_and : ∀ (φ ψ : Formula) (i j : FormulaId),
    s.Denotes i (.modal .box action (.binary .and φ ψ)) →
    s.Denotes j (.binary .and (.modal .box action φ) (.modal .box action ψ)) →
    ∀ ev ev' : Evaluator, ev.Coherent s m → ev'.Coherent s m →
      (∀ w x, (ev.ask (evaluateAt s m i w)).1 = .ok x ↔
        (ev'.ask (evaluateAt s m j w)).1 = .ok x) ∧
      ∀ world x, (ev.ask (evaluate s m i world)).1 = .ok x ↔
        (ev'.ask (evaluate s m j world)).1 = .ok x
  box_top : ∀ i, s.Denotes i (.modal .box action .top) → AlwaysAnswers s m i m.twist.absoluteTrue
  diamond_bot : ∀ i, s.Denotes i (.modal .diamond action .bot) →
    AlwaysAnswers s m i m.twist.absoluteFalse
  /-- If some check finds a formula valid, all checks find the box over it valid. -/
  necessitation : ∀ (φ : Formula) (i j : FormulaId), s.Denotes i φ →
    s.Denotes j (.modal .box action φ) →
    ∀ {threads threads' : Nat} (schedule : Schedule threads m.worlds.size)
      (schedule' : Schedule threads' m.worlds.size) (memoize memoize' : Bool),
      (∃ r, m.checkValidityOn schedule s i memoize = .ok r ∧ r.valid = true) →
      ∃ r, m.checkValidityOn schedule' s j memoize' = .ok r ∧ r.valid = true

/-- A formula that has the same value at all worlds is always answered with it. -/
lemma alwaysAnswers_of_value {s : FormulaStore} (hs : s.Built) {m : Model} {id : FormulaId}
    {φ : Formula} (hφ : s.Denotes id φ) {x : TwistElement}
    (hvalue : ∀ w < m.worlds.size, φ.value m w = .ok x) : AlwaysAnswers s m id x := by
  intro ev hev
  have hat : ∀ w < m.worlds.size, s.valueAt m id w = .ok x := by
    intro w hw
    rw [hφ.valueAt_eq hw, hvalue w hw]
  constructor
  · intro w hw
    rw [(hev.ask_evaluateAt hs id w).1, hat w hw]
  · intro world w hw
    rw [(hev.ask_evaluate hs id world).1, FormulaStore.valueIn, hw]
    exact hat w (Model.lt_size_of_findWorld? hw)

/-- In every model, the modalities of every known action are normal. -/
theorem normal_answers {ts : TwistStructure} (hts : ts.Generated) {m : Model}
    (hm : Model.Reachable ts m) {action : Text} (haction : m.hasAction action = true)
    {s : FormulaStore} (hs : s.Built) : NormalAnswers s m action := by
  obtain ⟨htwist, hwf⟩ := hm.wellFormed
  have hlawful : m.twist.Lawful := htwist ▸ hts.lawful
  have hvacuous : ∀ (mod : Modality) (φ : Formula),
      (∀ w < m.worlds.size, φ.value m w = .ok (mod.vacuous m.twist)) →
      ∀ w, (Formula.modal mod action φ).value m w = .ok (mod.vacuous m.twist) := by
    intro mod φ hφ w
    rw [Formula.value_eq_ok_iff hlawful hwf]
    refine Formula.hasValue_modal_vacuous hlawful hwf haction fun tr htr => ?_
    exact (Formula.value_eq_ok_iff hlawful hwf).mp (hφ _ (hwf.target_lt w action tr htr))
  constructor
  case box_and =>
    intro φ ψ i j hi hj ev ev' hev hev'
    refine hev.answers_of_values hs hs hev' hi hj (P := fun r r' => ∀ x, r = .ok x ↔ r' = .ok x)
      (fun _ _ => Iff.rfl) fun w _ x => ?_
    rw [Formula.value_eq_ok_iff hlawful hwf, Formula.value_eq_ok_iff hlawful hwf]
    exact Formula.hasValue_box_and_iff hlawful hwf
  case box_top =>
    intro i hi
    exact alwaysAnswers_of_value hs hi fun w _ => hvacuous .box .top (fun _ _ => rfl) w
  case diamond_bot =>
    intro i hi
    exact alwaysAnswers_of_value hs hi fun w _ => hvacuous .diamond .bot (fun _ _ => rfl) w
  case necessitation =>
    intro φ i j hi hj threads threads' schedule schedule' memoize memoize' hvalid
    rw [hi.valid_iff hs] at hvalid
    rw [hj.valid_iff hs]
    exact fun w _ => hvacuous .box φ hvalid w

/-- At the first world of the circular model, which sees both worlds with different weights, the box
over `p` and its negation is absolutely false, and hence so are the two boxes together. -/
theorem normal_answers_seesaw :
    let φ : Formula := .atom (ascii "p")
    let boxed : Formula := .modal .box (ascii "a") (.binary .and φ (.neg φ))
    let split : Formula :=
      .binary .and (.modal .box (ascii "a") φ) (.modal .box (ascii "a") (.neg φ))
    let s := FormulaStore.initial.add boxed
    let s' := s.2.add split
    NormalAnswers s'.2 .seesaw (ascii "a") ∧
      ((start .seesaw true).ask (evaluateAt s'.2 .seesaw s.1 0)).1 = .ok ⟨0, 1⟩ ∧
      ((start .seesaw true).ask (evaluateAt s'.2 .seesaw s'.1 0)).1 = .ok ⟨0, 1⟩ := by
  intro φ boxed split s s'
  have hs : s.2.Built := FormulaStore.Built.initial.add boxed
  have hs' : s'.2.Built := hs.add split
  have hnormal : NormalAnswers s'.2 .seesaw (ascii "a") :=
    normal_answers TwistStructure.generated_fourValued Model.reachable_seesaw (by decide +kernel)
      hs'
  have hboxed : s.2.Denotes s.1 boxed :=
    (FormulaStore.Built.initial.reachable.exact.add_spec boxed).2.2
  obtain ⟨-, hextends, hsplit⟩ := hs.reachable.exact.add_spec split
  have hanswer : ((start .seesaw true).ask (evaluateAt s'.2 .seesaw s.1 0)).1 = .ok ⟨0, 1⟩ := by
    decide +kernel
  have hcoherent := coherent_start s'.2 .seesaw true
  have hsame := hnormal.box_and _ _ _ _ (hboxed.mono hextends) hsplit _ _ hcoherent hcoherent
  exact ⟨hnormal, hanswer, (hsame.1 0 _).mp hanswer⟩

end Evaluator

end TwistLogic
