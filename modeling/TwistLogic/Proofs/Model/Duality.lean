import TwistLogic.Proofs.Model.Classical
import TwistLogic.Proofs.Related

/-!
# Box and diamond are dual

Negation turns the truth order round, so it turns greatest lower bounds into least upper bounds and
the other way (`Modality.isBest_negation`).  What a transition of absolute weight contributes to a
modality is, negated, what it contributes to the other modality over the negation
(`Modality.negation_term`): a weight of absolute truth contributes the value at its target, and a
weight of absolute falsity the vacuous value.

So if all weights are absolute, a modality and the negated other modality over the negation have the
same values (`Formula.HasValue.dual`).  The values of atoms need not be absolute.  They fail at the
same places whatever the weights are, because the faults of a formula depend neither on its
modalities nor on negation (`Formula.dual_fails_alike`).
-/

namespace TwistLogic

/-- The other modality. -/
def Modality.dual : Modality → Modality
  | .box => .diamond
  | .diamond => .box

/-! ## Negated bounds and contributions -/

namespace TwistStructure.Exact

variable {ts : TwistStructure} {ι : Type} {is : List ι} {f g : ι → TwistElement}
  {x y : TwistElement}

/-- Negation turns a bound into one of the negated members on the other side. -/
lemma isBound_negation (h : ts.Exact) {rel : TwistElement → TwistElement → Bool}
    (hrel : ∀ x y, ts.contains x = true → ts.contains y = true →
      rel (ts.negation x) (ts.negation y) = rel y x)
    (hf : ∀ i ∈ is, ts.contains (f i) = true) (hg : ∀ i ∈ is, g i = ts.negation (f i))
    (hx : ts.IsBound rel {a | ∃ i ∈ is, a = f i} x) :
    ts.IsBound (fun a b => rel b a) {a | ∃ i ∈ is, a = g i} (ts.negation x) := by
  refine ⟨h.contains_negation x, ?_, fun z hz hall => ?_⟩
  · rintro _ ⟨i, hi, rfl⟩
    rw [hg i hi, hrel _ _ (hf i hi) hx.contains]
    exact hx.bound _ ⟨i, hi, rfl⟩
  · -- negated, a bound of the negated members is one of the members themselves
    have hbest : rel (ts.negation z) x = true := by
      refine hx.best _ (h.contains_negation z) ?_
      rintro _ ⟨i, hi, rfl⟩
      have hbound : rel (g i) z = true := hall _ ⟨i, hi, rfl⟩
      rwa [hg i hi, ← h.negation_negation hz, hrel _ _ (hf i hi) (h.contains_negation z)] at hbound
    rwa [← hrel _ _ hx.contains (h.contains_negation z), h.negation_negation hz] at hbest

end TwistStructure.Exact

namespace Modality

variable {ts : TwistStructure} {ι : Type} {is : List ι} {f g : ι → TwistElement}
  {weight x : TwistElement}

/-- Negated, the best bound for a modality is that of the negated members for the other one. -/
lemma isBest_negation (h : ts.Exact) (mod : Modality) (hf : ∀ i ∈ is, ts.contains (f i) = true)
    (hg : ∀ i ∈ is, g i = ts.negation (f i)) (hx : mod.IsBest ts {a | ∃ i ∈ is, a = f i} x) :
    mod.dual.IsBest ts {a | ∃ i ∈ is, a = g i} (ts.negation x) := by
  cases mod with
  | box => exact h.isBound_negation (fun _ _ => h.leq_negation) hf hg hx
  | diamond => exact h.isBound_negation (fun _ _ hx hy => h.leq_negation hy hx) hf hg hx

/-- Negated, what a transition of absolute weight contributes is what it contributes to the other
modality over the negation. -/
lemma negation_term (h : ts.Exact) (mod : Modality) (hweight : ts.IsAbsolute weight)
    (hx : ts.contains x = true) :
    mod.dual.term ts weight (ts.negation x) = ts.negation (mod.term ts weight x) := by
  have hneg := h.contains_negation x
  cases mod with
  | box =>
    rcases hweight with rfl | rfl
    · rw [dual, term, term, h.absoluteTrue_meet hneg, h.absoluteTrue_implication hx]
    · rw [dual, term, term, h.absoluteFalse_meet hneg, h.absoluteFalse_implication hx,
        h.negation_absoluteTrue]
  | diamond =>
    rcases hweight with rfl | rfl
    · rw [dual, term, term, h.absoluteTrue_implication hneg, h.absoluteTrue_meet hx]
    · rw [dual, term, term, h.absoluteFalse_implication hneg, h.absoluteFalse_meet hx,
        h.negation_absoluteFalse]

end Modality

/-! ## Values -/

namespace Formula

variable {m : Model} {φ : Formula} {mod : Modality} {action : Text} {w : WorldIndex}
  {x : TwistElement}

/-- A value of a modality is one of the negated other modality over the negation. -/
lemma HasValue.dual (hts : m.twist.Exact) (hm : m.WellFormed) (hcrisp : m.CrispEdges)
    (h : (modal mod action φ).HasValue m w x) :
    (Formula.neg (modal mod.dual action (Formula.neg φ))).HasValue m w x := by
  have hmem : m.twist.contains x = true := h.contains hts.toLawful hm
  obtain ⟨haction, v, hv, hx⟩ := hasValue_modal_iff.mp h
  have hv' : ∀ tr ∈ m.successors w action, m.twist.contains (v tr.target) = true :=
    fun tr htr => (hv tr htr).contains hts.toLawful hm
  have hterm : ∀ tr ∈ m.successors w action,
      m.twist.contains (mod.term m.twist tr.weight (v tr.target)) = true := fun tr htr =>
    Modality.contains_term hts.toLawful (hm.weight_mem w action tr htr) (hv' tr htr)
  have hdual : (modal mod.dual action (Formula.neg φ)).HasValue m w (m.twist.negation x) := by
    refine hasValue_modal_iff.mpr
      ⟨haction, fun u => m.twist.negation (v u), fun tr htr => .neg (hv tr htr), ?_⟩
    exact mod.isBest_negation hts hterm
      (fun tr htr => mod.negation_term hts (hcrisp w action tr htr) (hv' tr htr)) hx
  rw [← hts.negation_negation hmem]
  exact .neg hdual

/-- A modality and the negated other modality over the negation have values at the same worlds, and
the same first failure at the others. -/
theorem dual_fails_alike (m : Model) (mod : Modality) (action : Text) (φ : Formula)
    (w : WorldIndex) :
    Related (fun _ _ => True) ((modal mod action φ).value m w)
      ((neg (modal mod.dual action (neg φ))).value m w) := by
  have hfaults : (neg (modal mod.dual action (neg φ))).faults m w =
      (modal mod action φ).faults m w := by
    simp only [faults]
  cases hvalue : (modal mod action φ).value m w with
  | ok x =>
    cases hdual : (neg (modal mod.dual action (neg φ))).value m w with
    | ok y => exact .ok trivial
    | error e =>
      rw [value_eq_error_iff, hfaults, ← value_eq_error_iff, hvalue] at hdual
      cases hdual
  | error e =>
    rw [value_eq_error_iff, ← hfaults, ← value_eq_error_iff] at hvalue
    rw [hvalue]
    exact .error e

/-- If all weights are absolute, a modality has the value or the first failure of the negated other
modality over the negation. -/
theorem value_dual (hts : m.twist.Exact) (hm : m.WellFormed) (hcrisp : m.CrispEdges) :
    (modal mod action φ).value m w = (neg (modal mod.dual action (neg φ))).value m w := by
  have halike := dual_fails_alike m mod action φ w
  cases hvalue : (modal mod action φ).value m w with
  | ok x =>
    have hhas := (value_eq_ok_iff hts.toLawful hm).mp hvalue
    exact ((value_eq_ok_iff hts.toLawful hm).mpr (hhas.dual hts hm hcrisp)).symm
  | error e =>
    rw [hvalue] at halike
    exact halike.eq_error.symm

end Formula

/-! ## Answers -/

/-- The two-valued model with a contradictory value for `p` at the second world. -/
def Model.crispEdged : Model :=
  .made .fourValued (Edit.twoValued ++ [.assign (ascii "v") (ascii "p") ⟨1, 1⟩])

namespace Evaluator

/-- If all weights of a model are absolute, evaluators give answers about a modality and the negated
other modality over the negation at the same worlds, and fail with the same error at the others.
The answers are the same, if the structure has no more elements than its table of negation has
positions. -/
theorem dual_answers {ts : TwistStructure} (hts : ts.Generated) {m : Model}
    (hm : Model.Reachable ts m) (hcrisp : m.CrispEdges) {s : FormulaStore} (hs : s.Built)
    {mod : Modality} {action : Text} {φ : Formula} {i j : FormulaId}
    (hi : s.Denotes i (.modal mod action φ))
    (hj : s.Denotes j (.neg (.modal mod.dual action (.neg φ)))) {ev ev' : Evaluator}
    (hev : ev.Coherent s m) (hev' : ev'.Coherent s m) :
    (∀ w, Related (fun x y => ts.size ≤ UInt32.size → x = y) (ev.ask (evaluateAt s m i w)).1
      (ev'.ask (evaluateAt s m j w)).1) ∧
    ∀ world, Related (fun x y => ts.size ≤ UInt32.size → x = y) (ev.ask (evaluate s m i world)).1
      (ev'.ask (evaluate s m j world)).1 := by
  obtain ⟨rfl, hwf⟩ := hm.wellFormed
  refine hev.answers_of_values hs hs hev' hi hj (P := Related _) .error fun w _ => ?_
  exact (Formula.dual_fails_alike m mod action φ w).under fun hsize =>
    .of_eq (Formula.value_dual (hts.exact hsize) hwf hcrisp)

/-- Of the transitions of `u`, the one without weight contributes absolute truth to a box, and the
other one the contradictory value at its target. -/
theorem dual_answers_crispEdged :
    let φ : Formula := .atom (ascii "p")
    let boxed : Formula := .modal .box (ascii "a") φ
    let dual : Formula := .neg (.modal .diamond (ascii "a") (.neg φ))
    let s := FormulaStore.initial.add boxed
    let s' := s.2.add dual
    ((start .crispEdged true).ask (evaluate s'.2 .crispEdged s.1 (ascii "u"))).1 = .ok ⟨1, 1⟩ ∧
      ((start .crispEdged true).ask (evaluate s'.2 .crispEdged s'.1 (ascii "u"))).1 =
        .ok ⟨1, 1⟩ := by
  intro φ boxed dual s s'
  have hs : s.2.Built := FormulaStore.Built.initial.add boxed
  have hboxed : s.2.Denotes s.1 boxed :=
    (FormulaStore.Built.initial.reachable.exact.add_spec boxed).2.2
  obtain ⟨-, hextends, hdual⟩ := hs.reachable.exact.add_spec dual
  have hcrisp : Model.crispEdged.CrispEdges := Model.crispEdges_of_forall_mem (by decide +kernel)
  have hcoherent := coherent_start s'.2 .crispEdged true
  have hanswers := dual_answers TwistStructure.generated_fourValued (Model.reachable_made _) hcrisp
    (hs.add dual) (hboxed.mono hextends) hdual hcoherent hcoherent
  have hsame := ((hanswers.2 (ascii "u")).mono fun _ _ hxy => hxy (by decide)).eq
  have hanswer : ((start .crispEdged true).ask
      (evaluate s'.2 .crispEdged s.1 (ascii "u"))).1 = .ok ⟨1, 1⟩ := by
    decide +kernel
  exact ⟨hanswer, hsame.symm.trans hanswer⟩

/-- Where the table of negation wraps, a box over a world without transitions is absolute truth, but
the negated diamond over the negation is absolute falsity. -/
theorem dual_answers_differ_without_edges :
    let boxed : Formula := .modal .box (ascii "a") .top
    let dual : Formula := .neg (.modal .diamond (ascii "a") (.neg .top))
    let s := FormulaStore.initial.add boxed
    let s' := s.2.add dual
    ∃ ts, CommandLine.twistOf (65537 * 65537) (ascii "goedel:65537") = .ok ts ∧ ts.Generated ∧
      let m := (Report.bareModel ts).declareAction (ascii "a")
      Model.Reachable ts m ∧ m.CrispEdges ∧
      ((start m true).ask (evaluateAt s'.2 m s.1 0)).1 = .ok ts.absoluteTrue ∧
      ((start m true).ask (evaluateAt s'.2 m s'.1 0)).1 = .ok ts.absoluteFalse ∧
      ts.absoluteTrue ≠ ts.absoluteFalse := by
  intro boxed dual s s'
  obtain ⟨ts, h⟩ := TwistStructure.exists_isWide
  refine ⟨ts, h.selected, h.generated, ?_⟩
  intro m
  have hs : s.2.Built := FormulaStore.Built.initial.add boxed
  have hboxed : s.2.Denotes s.1 boxed :=
    (FormulaStore.Built.initial.reachable.exact.add_spec boxed).2.2
  obtain ⟨-, hextends, hdual⟩ := hs.reachable.exact.add_spec dual
  have hreachable : Model.Reachable ts m :=
    (Report.reachable_bareModel ts).edit (.declareAction (ascii "a")) rfl
  have hanswer : ∀ {id : FormulaId} {φ : Formula}, s'.2.Denotes id φ →
      ((start m true).ask (evaluateAt s'.2 m id 0)).1 = φ.value m 0 := fun hφ =>
    ((coherent_start s'.2 m true).ask_evaluateAt (hs.add dual) _ 0).1.trans
      (hφ.valueAt_eq Nat.zero_lt_one)
  have hworlds : m.worlds.toList = [{ id := ascii "w", valuation := ∅, edges := ∅ }] := rfl
  have hvalue : dual.value m 0 = .ok (ts.negation ts.absoluteFalse) := rfl
  refine ⟨hreachable, Model.crispEdges_of_forall_mem (by simp [hworlds]), ?_, ?_, ?_⟩
  · rw [hanswer (hboxed.mono hextends)]
    rfl
  · rw [hanswer hdual, hvalue, h.negation_absoluteFalse]
  · rw [h.absoluteFalse_eq, h.absoluteTrue_eq]
    decide

/-- With other weights, the two may differ. -/
example :
    let φ : Formula := .atom (ascii "p")
    let s := FormulaStore.initial.add (.modal .diamond (ascii "a") φ)
    let s' := s.2.add (.neg (.modal .box (ascii "a") (.neg φ)))
    ((start .seesaw true).ask (evaluate s'.2 .seesaw s.1 (ascii "u"))).1 = .ok ⟨1, 1⟩ ∧
      ((start .seesaw true).ask (evaluate s'.2 .seesaw s'.1 (ascii "u"))).1 = .ok ⟨1, 0⟩ := by
  decide +kernel

end Evaluator

end TwistLogic
