import TwistLogic.CommandLine.Report
import TwistLogic.Proofs.Algebra.Implication
import TwistLogic.Proofs.Algebra.Positions
import TwistLogic.Proofs.Formula.Reach
import TwistLogic.Proofs.Model.Meaning

/-!
# Two-valued models

If a model uses only the two absolute values, its formulas are as true as they are in the classical
semantics of worlds and accessible worlds: both implications are the classical one, and a transition
of absolutely true weight makes its target accessible (`Evaluator.classical_answers`).  In
particular, a formula without atoms and modalities has its classical value in every algebra.

An element `Represents` a proposition if it is absolute truth where the proposition holds and
absolute falsity where it does not.  Each operation on elements represents a connective on
propositions, and best bounds represent the quantifiers.  In an algebra of one element the two
absolute values are the same, and it represents everything.
-/

namespace TwistLogic

/-! ## Classical truth -/

/-- Where propositions hold, and which worlds are accessible under an action. -/
structure KripkeModel where
  holds : WorldIndex → Text → Prop
  sees : Text → WorldIndex → WorldIndex → Prop

/-- Both implications are the classical one. -/
def Connective.Holds : Connective → Prop → Prop → Prop
  | .and, P, Q => P ∧ Q
  | .or, P, Q => P ∨ Q
  | .resImplies, P, Q => P → Q
  | .implies, P, Q => P → Q
  | .iff, P, Q => P ↔ Q

/-- Classical truth of a formula at a world. -/
def Formula.Satisfied (K : KripkeModel) : Formula → WorldIndex → Prop
  | .top, _ => True
  | .bot, _ => False
  | .atom p, w => K.holds w p
  | .neg φ, w => ¬φ.Satisfied K w
  | .binary c φ ψ, w => c.Holds (φ.Satisfied K w) (ψ.Satisfied K w)
  | .modal .box action φ, w => ∀ u, K.sees action w u → φ.Satisfied K u
  | .modal .diamond action φ, w => ∃ u, K.sees action w u ∧ φ.Satisfied K u

/-- A formula without atoms and modalities is true everywhere or nowhere. -/
lemma Formula.satisfied_congr {φ : Formula} (hatoms : φ.atoms = []) (hactions : φ.actions = [])
    (K K' : KripkeModel) (w w' : WorldIndex) : φ.Satisfied K w ↔ φ.Satisfied K' w' := by
  induction φ with
  | top => exact Iff.rfl
  | bot => exact Iff.rfl
  | atom p => simp [atoms] at hatoms
  | neg φ ih => exact not_congr (ih hatoms hactions)
  | binary c φ ψ ihφ ihψ =>
    simp only [atoms, actions, List.append_eq_nil_iff] at hatoms hactions
    simp only [Satisfied, propext (ihφ hatoms.1 hactions.1), propext (ihψ hatoms.2 hactions.2)]
  | modal mod action φ => simp [actions] at hactions

/-! ## Elements that represent propositions -/

namespace TwistStructure

variable {ts : TwistStructure} {x y : TwistElement} {P Q : Prop}

/-- Whether an element is one of the two absolute values. -/
def IsAbsolute (ts : TwistStructure) (x : TwistElement) : Prop :=
  x = ts.absoluteTrue ∨ x = ts.absoluteFalse

instance (ts : TwistStructure) (x : TwistElement) : Decidable (ts.IsAbsolute x) :=
  inferInstanceAs (Decidable (_ ∨ _))

/-- Absolute truth where a proposition holds, and absolute falsity where it does not. -/
structure Represents (ts : TwistStructure) (P : Prop) (x : TwistElement) : Prop where
  of_holds : P → x = ts.absoluteTrue
  of_not : ¬P → x = ts.absoluteFalse

namespace Represents

/-- An absolute value represents that it is absolute truth. -/
lemma of_isAbsolute (h : ts.IsAbsolute x) : ts.Represents (x = ts.absoluteTrue) x where
  of_holds heq := heq
  of_not hne := h.resolve_left hne

lemma congr (h : ts.Represents P x) (hPQ : P ↔ Q) : ts.Represents Q x :=
  propext hPQ ▸ h

lemma contains (hts : ts.Lawful) (h : ts.Represents P x) : ts.contains x = true := by
  by_cases hP : P
  · exact h.of_holds hP ▸ hts.contains_absoluteTrue
  · exact h.of_not hP ▸ hts.contains_absoluteFalse

lemma negation (hts : ts.Exact) (h : ts.Represents P x) : ts.Represents (¬P) (ts.negation x) where
  of_holds hP := by rw [h.of_not hP, hts.negation_absoluteFalse]
  of_not hP := by rw [h.of_holds (not_not.mp hP), hts.negation_absoluteTrue]

lemma meet (hts : ts.Lawful) (h : ts.Represents P x) (h' : ts.Represents Q y) :
    ts.Represents (P ∧ Q) (ts.meet x y) := by
  have hy := h'.contains hts
  by_cases hP : P
  · rw [h.of_holds hP, hts.absoluteTrue_meet hy]
    exact h'.congr (and_iff_right hP).symm
  · rw [h.of_not hP, hts.absoluteFalse_meet hy]
    exact ⟨fun hPQ => absurd hPQ.1 hP, fun _ => rfl⟩

lemma join (hts : ts.Lawful) (h : ts.Represents P x) (h' : ts.Represents Q y) :
    ts.Represents (P ∨ Q) (ts.join x y) := by
  have hy := h'.contains hts
  by_cases hP : P
  · rw [h.of_holds hP, hts.absoluteTrue_join hy]
    exact ⟨fun _ => rfl, fun hPQ => absurd (.inl hP) hPQ⟩
  · rw [h.of_not hP, hts.absoluteFalse_join hy]
    exact h'.congr (or_iff_right hP).symm

lemma implication (hts : ts.Lawful) (h : ts.Represents P x) (h' : ts.Represents Q y) :
    ts.Represents (P → Q) (ts.implication x y) := by
  have hy := h'.contains hts
  by_cases hP : P
  · rw [h.of_holds hP, hts.absoluteTrue_implication hy]
    exact h'.congr (imp_iff_right hP).symm
  · rw [h.of_not hP, hts.absoluteFalse_implication hy]
    exact ⟨fun _ => rfl, fun hPQ => absurd (fun hP' => absurd hP' hP) hPQ⟩

lemma material (hts : ts.Exact) (h : ts.Represents P x) (h' : ts.Represents Q y) :
    ts.Represents (P → Q) (ts.material x y) :=
  ((h.negation hts).join hts.toLawful h').congr imp_iff_not_or.symm

/-- Each connective on elements represents its classical counterpart. -/
lemma connective (hts : ts.Exact) (c : Connective) (h : ts.Represents P x)
    (h' : ts.Represents Q y) : ts.Represents (c.Holds P Q) (c.value ts x y) := by
  cases c with
  | and => exact h.meet hts.toLawful h'
  | or => exact h.join hts.toLawful h'
  | resImplies => exact h.implication hts.toLawful h'
  | implies => exact h.material hts h'
  | iff => exact ((h.material hts h').meet hts.toLawful (h'.material hts h)).congr iff_def.symm

section Bounds

variable {ι : Type} {is : List ι} {f : ι → TwistElement} {R : ι → Prop}

/-- A greatest lower bound represents a universal proposition. -/
lemma of_isGlb (hts : ts.Lawful) (h : ∀ i ∈ is, ts.Represents (R i) (f i))
    (hx : ts.IsGlb {y | ∃ i ∈ is, y = f i} x) : ts.Represents (∀ i ∈ is, R i) x where
  of_holds hall := by
    refine (hts.isGlb_eq_absoluteTrue_iff ?_ hx).mpr ?_
    · rintro _ ⟨i, hi, rfl⟩
      exact (h i hi).contains hts
    · rintro _ ⟨i, hi, rfl⟩
      exact (h i hi).of_holds (hall i hi)
  of_not hnot := by
    push Not at hnot
    obtain ⟨i, hi, hR⟩ := hnot
    have hbelow : ts.leq x (f i) = true := hx.bound _ ⟨i, hi, rfl⟩
    rw [(h i hi).of_not hR] at hbelow
    exact hts.leq_antisymm hx.contains hts.contains_absoluteFalse hbelow
      (hts.absoluteFalse_leq hx.contains)

/-- A least upper bound represents an existential proposition. -/
lemma of_isLub (hts : ts.Lawful) (h : ∀ i ∈ is, ts.Represents (R i) (f i))
    (hx : ts.IsLub {y | ∃ i ∈ is, y = f i} x) : ts.Represents (∃ i ∈ is, R i) x where
  of_holds := by
    rintro ⟨i, hi, hR⟩
    have habove : ts.leq (f i) x = true := hx.bound _ ⟨i, hi, rfl⟩
    rw [(h i hi).of_holds hR] at habove
    exact hts.leq_antisymm hx.contains hts.contains_absoluteTrue (hts.leq_absoluteTrue hx.contains)
      habove
  of_not hnot := by
    push Not at hnot
    refine hts.leq_antisymm hx.contains hts.contains_absoluteFalse ?_
      (hts.absoluteFalse_leq hx.contains)
    refine hx.best _ hts.contains_absoluteFalse ?_
    rintro _ ⟨i, hi, rfl⟩
    rw [(h i hi).of_not (hnot i hi)]
    exact hts.leq_refl hts.contains_absoluteFalse

end Bounds

end Represents

end TwistStructure

/-! ## Two-valued models -/

namespace Model

/-- All values and all weights are absolute truth or absolute falsity. -/
structure Crisp (m : Model) : Prop where
  value : ∀ w p x, m.value? w p = some x → m.twist.IsAbsolute x
  weight : ∀ w action, ∀ tr ∈ m.successors w action, m.twist.IsAbsolute tr.weight

/-- A proposition holds where it is absolutely true, and transitions of absolutely true weight make
their targets accessible. -/
def classical (m : Model) : KripkeModel where
  holds w p := m.value? w p = some m.twist.absoluteTrue
  sees action w u :=
    ∃ tr ∈ m.successors w action, tr.target = u ∧ tr.weight = m.twist.absoluteTrue

/-- All weights are absolute truth or absolute falsity.  The values may be others. -/
def CrispEdges (m : Model) : Prop :=
  ∀ w action, ∀ tr ∈ m.successors w action, m.twist.IsAbsolute tr.weight

/-- Whether all weights are absolute is a finite check. -/
lemma crispEdges_of_forall_mem {m : Model} (h : ∀ u ∈ m.worlds.toList,
    ∀ e ∈ u.edges.toList, ∀ tr ∈ e.2, m.twist.IsAbsolute tr.weight) : m.CrispEdges := by
  intro w action tr htr
  unfold successors at htr
  cases hedges : (m.worlds[w]?).bind (·.edges[action]?) with
  | none => simp [hedges] at htr
  | some trs =>
    rw [hedges, Option.getD_some] at htr
    obtain ⟨u, hu, hp⟩ := Option.bind_eq_some_iff.mp hedges
    have hmem := Array.mem_toList_iff.mpr (Array.mem_of_getElem? hu)
    exact h u hmem (action, trs) (Std.TreeMap.mem_toList_iff_getElem?_eq_some.mpr hp) tr htr

/-- Whether a model is two-valued is a finite check. -/
lemma crisp_of_forall_mem {m : Model} (h : ∀ u ∈ m.worlds.toList,
    (∀ e ∈ u.valuation.toList, m.twist.IsAbsolute e.2) ∧
      ∀ e ∈ u.edges.toList, ∀ tr ∈ e.2, m.twist.IsAbsolute tr.weight) : m.Crisp := by
  refine ⟨fun w p x hx => ?_, crispEdges_of_forall_mem fun u hu => (h u hu).2⟩
  obtain ⟨u, hu, hp⟩ := Option.bind_eq_some_iff.mp hx
  have hmem := Array.mem_toList_iff.mpr (Array.mem_of_getElem? hu)
  exact (h u hmem).1 (p, x) (Std.TreeMap.mem_toList_iff_getElem?_eq_some.mpr hp)

end Model

/-- In a two-valued model, the value of a formula represents its classical truth. -/
theorem Formula.HasValue.represents {m : Model} {φ : Formula} {w : WorldIndex} {x : TwistElement}
    (hts : m.twist.Exact) (hm : m.Crisp) (h : φ.HasValue m w x) :
    m.twist.Represents (φ.Satisfied m.classical w) x := by
  have hlawful := hts.toLawful
  induction h with
  | top => exact ⟨fun _ => rfl, fun hfalse => absurd trivial hfalse⟩
  | bot => exact ⟨False.elim, fun _ => rfl⟩
  | @atom p w x hx =>
    refine (TwistStructure.Represents.of_isAbsolute (hm.value w p x hx)).congr ?_
    simp only [Satisfied, Model.classical, hx, Option.some.injEq]
  | neg _ ih => exact ih.negation hts
  | and _ _ ihφ ihψ => exact ihφ.connective hts .and ihψ
  | or _ _ ihφ ihψ => exact ihφ.connective hts .or ihψ
  | resImplies _ _ ihφ ihψ => exact ihφ.connective hts .resImplies ihψ
  | implies _ _ ihφ ihψ => exact ihφ.connective hts .implies ihψ
  | iff _ _ ihφ ihψ => exact ihφ.connective hts .iff ihψ
  | @diamond action φ w v x haction hv hx ih =>
    have hterm : ∀ tr ∈ m.successors w action,
        m.twist.Represents (tr.weight = m.twist.absoluteTrue ∧ φ.Satisfied m.classical tr.target)
          (m.twist.meet tr.weight (v tr.target)) := fun tr htr =>
      (TwistStructure.Represents.of_isAbsolute (hm.weight w action tr htr)).meet hlawful (ih tr htr)
    refine (TwistStructure.Represents.of_isLub hlawful hterm hx).congr ?_
    constructor
    · rintro ⟨tr, htr, hweight, hφ⟩
      exact ⟨tr.target, ⟨tr, htr, rfl, hweight⟩, hφ⟩
    · rintro ⟨_, ⟨tr, htr, rfl, hweight⟩, hφ⟩
      exact ⟨tr, htr, hweight, hφ⟩
  | @box action φ w v x haction hv hx ih =>
    have hterm : ∀ tr ∈ m.successors w action,
        m.twist.Represents (tr.weight = m.twist.absoluteTrue → φ.Satisfied m.classical tr.target)
          (m.twist.implication tr.weight (v tr.target)) := fun tr htr =>
      (TwistStructure.Represents.of_isAbsolute (hm.weight w action tr htr)).implication hlawful
        (ih tr htr)
    refine (TwistStructure.Represents.of_isGlb hlawful hterm hx).congr ?_
    constructor
    · rintro hall _ ⟨tr, htr, rfl, hweight⟩
      exact hall tr htr hweight
    · intro hall tr htr hweight
      exact hall tr.target ⟨tr, htr, rfl, hweight⟩

/-! ## The bare model -/

namespace Report

/-- The bare model arises by adding one world without values. -/
lemma reachable_bareModel (ts : TwistStructure) : Model.Reachable ts (bareModel ts) := by
  refine Model.Reachable.empty.edit (.addWorld (ascii "w") ∅) ?_
  have hplace : (Model.empty ts).place { id := ascii "w", valuation := ∅ } =
      .ok { Model.empty ts with worlds := #[{ id := ascii "w", valuation := ∅, edges := ∅ }] } :=
    Model.place_eq_ok_iff.mpr ⟨by simp [Model.findWorld?, Model.empty], by simp, rfl⟩
  exact bind_eq_ok_iff.mpr ⟨_, Model.addWorld_eq_ok_iff.mpr ⟨_, hplace, rfl, rfl⟩, rfl⟩

lemma crisp_bareModel (ts : TwistStructure) : (bareModel ts).Crisp :=
  Model.crisp_of_forall_mem fun u hu => by
    obtain rfl : u = { id := ascii "w", valuation := ∅, edges := ∅ } := by
      simpa [bareModel] using hu
    simp

/-- In the bare model, a formula without atoms and modalities has a value. -/
lemma exists_closedValue {s : FormulaStore} (hs : s.Built) {id : FormulaId} {φ : Formula}
    (hφ : s.Denotes id φ) (hatoms : φ.atoms = []) (hactions : φ.actions = [])
    (ts : TwistStructure) :
    ∃ x, (closedValue s ts id).1 = .ok x ∧ φ.value (bareModel ts) 0 = .ok x := by
  have hanswer : (closedValue s ts id).1 = φ.value (bareModel ts) 0 := by
    have hworld : (bareModel ts).findWorld? (ascii "w") = some 0 := by
      simp [Model.findWorld?, bareModel]
    have hask := ((Evaluator.coherent_start s (bareModel ts) true).ask_evaluate hs id (ascii "w")).1
    rw [FormulaStore.valueIn, hworld] at hask
    rw [show (closedValue s ts id).1 = _ from hask]
    simp [FormulaStore.valueAt, FormulaStore.tree?_eq_some_iff.mpr hφ, bareModel]
  rw [hanswer]
  cases hvalue : φ.value (bareModel ts) 0 with
  | ok x => exact ⟨x, rfl, rfl⟩
  | error e =>
    have hfirst := Formula.value_eq_error_iff.mp hvalue
    rw [Formula.faults_of_actions_eq_nil hactions, hatoms] at hfirst
    simp at hfirst

end Report

/-! ## A two-valued model -/

/-- The edits that make two worlds, the second of which the first one sees.  The transition of the
first to itself has no weight, and `p` holds at the second only. -/
def Edit.twoValued : List Edit :=
  [.addWorlds [⟨ascii "u", ∅⟩, ⟨ascii "v", ∅⟩],
    .assign (ascii "u") (ascii "p") ⟨0, 1⟩,
    .assign (ascii "v") (ascii "p") ⟨1, 0⟩,
    .addRelation (ascii "u") (ascii "u") (ascii "a") ⟨0, 1⟩,
    .addRelation (ascii "u") (ascii "v") (ascii "a") ⟨1, 0⟩]

/-- The model that these edits make over the structure of four values. -/
def Model.twoValued : Model := .made .fourValued Edit.twoValued

lemma Model.crisp_twoValued : twoValued.Crisp := crisp_of_forall_mem (by decide +kernel)

/-! ## Answers -/

namespace Evaluator

/-- In a two-valued model over a structure that has no more elements than its table of negation has
positions, every answer of an evaluator is absolute truth if the formula holds classically, and
absolute falsity otherwise.  For a formula without atoms and modalities, the command line finds a
value in every algebra that it can select, and it is such a value if there are no more pairs of
elements than that. -/
theorem classical_answers {s : FormulaStore} (hs : s.Built) {id : FormulaId} {φ : Formula}
    (hφ : s.Denotes id φ) :
    (∀ ts m, ts.Generated → ts.size ≤ UInt32.size → Model.Reachable ts m → m.Crisp →
      ∀ ev : Evaluator, ev.Coherent s m →
      (∀ w x, (ev.ask (evaluateAt s m id w)).1 = .ok x →
        ts.Represents (φ.Satisfied m.classical w) x) ∧
      ∀ world x, (ev.ask (evaluate s m id world)).1 = .ok x →
        ∃ w, m.findWorld? world = some w ∧ ts.Represents (φ.Satisfied m.classical w) x) ∧
    (φ.atoms = [] → φ.actions = [] → ∀ cells spec ts, CommandLine.twistOf cells spec = .ok ts →
      ∃ x, (Report.closedValue s ts id).1 = .ok x ∧
        (ts.size ≤ UInt32.size → ∀ K w, ts.Represents (φ.Satisfied K w) x)) := by
  constructor
  · intro ts m hts hsize hm hcrisp ev hev
    obtain ⟨rfl, hwf⟩ := hm.wellFormed
    have hexact := hts.exact hsize
    have hat : ∀ w x, s.valueAt m id w = .ok x →
        m.twist.Represents (φ.Satisfied m.classical w) x := by
      intro w x hx
      rw [FormulaStore.valueAt, FormulaStore.tree?_eq_some_iff.mpr hφ] at hx
      split at hx
      · cases hx
      · exact ((Formula.value_eq_ok_iff hts.lawful hwf).mp hx).represents hexact hcrisp
    constructor
    · intro w x hx
      rw [(hev.ask_evaluateAt hs id w).1] at hx
      exact hat w x hx
    · intro world x hx
      rw [(hev.ask_evaluate hs id world).1, FormulaStore.valueIn] at hx
      split at hx
      next w hw => exact ⟨w, hw, hat w x hx⟩
      next => cases hx
  · intro hatoms hactions cells spec ts hspec
    have hts := CommandLine.generated_of_twistOf hspec
    obtain ⟨x, hclosed, hvalue⟩ := Report.exists_closedValue hs hφ hatoms hactions ts
    obtain ⟨-, hwf⟩ := (Report.reachable_bareModel ts).wellFormed
    have hhas := (Formula.value_eq_ok_iff hts.lawful hwf).mp hvalue
    refine ⟨x, hclosed, fun hsize K w => ?_⟩
    have hrepresents := hhas.represents (hts.exact hsize) (Report.crisp_bareModel ts)
    exact hrepresents.congr (Formula.satisfied_congr hatoms hactions _ K 0 w)

/-- What holds at all accessible worlds need not hold here: the value at `u` shows that the
classical implication is false there.  And `~0 => 0` is absolutely false in the Łukasiewicz chain of
three elements. -/
theorem classical_answers_twoValued :
    let φ : Formula := .binary .resImplies (.modal .box (ascii "a") (.atom (ascii "p")))
      (.atom (ascii "p"))
    let ψ : Formula := .binary .resImplies (.neg .bot) .bot
    let s := FormulaStore.initial.add φ
    let s' := FormulaStore.initial.add ψ
    let ts := (CommandLine.twistOf 9 (ascii "lukasiewicz:3")).toOption.getD .fourValued
    ((start .twoValued true).ask (evaluate s.2 .twoValued s.1 (ascii "u"))).1 = .ok ⟨0, 1⟩ ∧
    (∃ w, Model.twoValued.findWorld? (ascii "u") = some w ∧
      ¬φ.Satisfied Model.twoValued.classical w) ∧
    ts.size = 9 ∧ (Report.closedValue s'.2 ts s'.1).1 = .ok ts.absoluteFalse := by
  intro φ ψ s s' ts
  have hts := TwistStructure.generated_fourValued
  have hadd := fun χ : Formula => (FormulaStore.Built.initial.reachable.exact.add_spec χ).2.2
  have hvalue : ((start .twoValued true).ask (evaluate s.2 .twoValued s.1 (ascii "u"))).1 =
      .ok ⟨0, 1⟩ := by
    decide +kernel
  have hspec : CommandLine.twistOf 9 (ascii "lukasiewicz:3") = .ok ts :=
    eq_ok_getD_of_isSome (by decide +kernel)
  have hsize : ts.size = 9 := by decide +kernel
  refine ⟨hvalue, ?_, hsize, ?_⟩
  · have hanswers := (classical_answers (FormulaStore.Built.initial.add φ) (hadd φ)).1 _ _ hts
      (by decide) (Model.reachable_made Edit.twoValued) Model.crisp_twoValued _
      (coherent_start _ _ true)
    obtain ⟨w, hw, hrepresents⟩ := hanswers.2 (ascii "u") ⟨0, 1⟩ hvalue
    exact ⟨w, hw, fun hφ => absurd (hrepresents.of_holds hφ) (by decide)⟩
  · obtain ⟨x, hx, hrepresents⟩ := (classical_answers (FormulaStore.Built.initial.add ψ)
      (hadd ψ)).2 rfl rfl 9 _ ts hspec
    have hfalse := hrepresents (hsize.le.trans (by decide)) Model.twoValued.classical 0
    rw [hx, hfalse.of_not (by simp [ψ, Formula.Satisfied, Connective.Holds])]

/-- Where the table of negation wraps, `~0` may have the value of absolute falsity. -/
theorem negated_falsity_absoluteFalse :
    let φ : Formula := .neg .bot
    let s := FormulaStore.initial.add φ
    ∃ ts, CommandLine.twistOf (65537 * 65537) (ascii "goedel:65537") = .ok ts ∧ ts.Generated ∧
      Model.Reachable ts (Report.bareModel ts) ∧ (Report.bareModel ts).Crisp ∧
      ((start (Report.bareModel ts) true).ask
        (evaluate s.2 (Report.bareModel ts) s.1 (ascii "w"))).1 = .ok ts.absoluteFalse ∧
      (Report.closedValue s.2 ts s.1).1 = .ok ts.absoluteFalse ∧
      (∀ K w, φ.Satisfied K w) ∧ ts.absoluteFalse ≠ ts.absoluteTrue := by
  intro φ s
  obtain ⟨ts, h⟩ := TwistStructure.exists_isWide
  have hφ : s.2.Denotes s.1 φ := (FormulaStore.Built.initial.reachable.exact.add_spec φ).2.2
  obtain ⟨x, hclosed, hvalue⟩ :=
    Report.exists_closedValue (FormulaStore.Built.initial.add φ) hφ rfl rfl ts
  obtain rfl : ts.absoluteFalse = x :=
    h.negation_absoluteFalse.symm.trans (Except.ok.inj hvalue)
  refine ⟨ts, h.selected, h.generated, Report.reachable_bareModel ts, Report.crisp_bareModel ts,
    hclosed, hclosed, fun _ _ => not_false, ?_⟩
  rw [h.absoluteFalse_eq, h.absoluteTrue_eq]
  decide

end Evaluator

end TwistLogic
