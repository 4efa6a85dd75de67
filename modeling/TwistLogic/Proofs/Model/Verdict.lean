import TwistLogic.Proofs.Model.Schedule

/-!
# What a check finds

A report counts what the evaluators have done and says what they have found.  The counts depend on
the schedule and on what is remembered, the findings do not: they are a function of the outcomes at
the single worlds (`Model.findings_checkValidityOn`).

The outcomes in turn depend on the content of the model only.  Models with the same content may
differ in their revisions, and in the trees that hold their values, but every formula has the same
value or the same first failure in both (`Model.SameContent.value_eq`), and so the verdicts are the
same (`Model.SameContent.verdict_eq`).
-/

namespace TwistLogic

/-- What a report says about the worlds. -/
structure Findings where
  counterExamples : List CounterExample
  values : List TwistElement
  aggregate : TwistElement
  deriving DecidableEq

/-- A report without its counts. -/
def ValidityReport.findings (r : ValidityReport) : Findings :=
  { counterExamples := r.counterExamples, values := r.values, aggregate := r.aggregate }

namespace Model

variable {m m' : Model}

/-- What the outcomes at the single worlds say about a model, or the error at the first world that
fails. -/
def verdict (m : Model) (outcome : WorldIndex → Except EvalError TwistElement) :
    Except EvalError Findings := do
  let values ← (List.range m.worlds.size).mapM outcome
  return {
    counterExamples := m.counterExamples values
    values
    aggregate := m.twist.meetAll values }

/-- A check finds what the values of the formula at the single worlds say. -/
theorem findings_checkValidityOn {s : FormulaStore} (hs : s.Built) (id : FormulaId) {threads : Nat}
    (schedule : Schedule threads m.worlds.size) (memoize : Bool) :
    (m.checkValidityOn schedule s id memoize).map ValidityReport.findings =
      m.verdict (s.valueAt m id) := by
  obtain ⟨done, hsv, hdone⟩ := Survey.coherent_surveyOn hs id schedule memoize
  have hfault : ((m.surveyOn schedule s id memoize).errors.toList.findSome? fun e => e) =
      error? ((List.range m.worlds.size).mapM (s.valueAt m id)) := by
    rw [hsv.errors_toList hdone, List.findSome?_map, error?_mapM_eq_findSome?]
    rfl
  unfold checkValidityOn report verdict
  rw [hfault]
  cases hvalues : (List.range m.worlds.size).mapM (s.valueAt m id) with
  | error e => rfl
  | ok values =>
    obtain ⟨v, hv, rfl⟩ := exists_map_of_mapM_eq_ok m.twist.absoluteTrue hvalues
    rw [hsv.values_toList hdone fun w hw => hv w (List.mem_range.mpr hw)]
    rfl

/-! ## Models with the same content -/

/-- Two models hold the same.  Their revisions may differ. -/
structure SameContent (m m' : Model) : Prop where
  twist : m.twist = m'.twist
  ids : m.worlds.map (·.id) = m'.worlds.map (·.id)
  value?_eq : ∀ w prop, m.value? w prop = m'.value? w prop
  successors_eq : ∀ w action, m.successors w action = m'.successors w action
  hasAction_eq : ∀ action, m.hasAction action = m'.hasAction action

/-- The counterexamples by the names of the worlds. -/
lemma counterExamples_eq (m : Model) (values : List TwistElement) :
    m.counterExamples values =
      ((m.worlds.map (·.id)).toList.zip values).filterMap fun (id, x) =>
        if x = m.twist.absoluteTrue then none else some { world := id, value := x } := by
  rw [counterExamples, Array.toList_map, List.zip_map_left, List.filterMap_map]
  rfl

namespace SameContent

lemma refl (m : Model) : m.SameContent m :=
  ⟨rfl, rfl, fun _ _ => rfl, fun _ _ => rfl, fun _ => rfl⟩

lemma size_eq (h : m.SameContent m') : m.worlds.size = m'.worlds.size := by
  simpa using congrArg Array.size h.ids

lemma worldId_eq (h : m.SameContent m') (w : WorldIndex) : m.worldId w = m'.worldId w := by
  have hname := congrArg (·[w]?) h.ids
  simp only [Array.getElem?_map] at hname
  exact worldId_eq_of_map_id_eq hname

/-- In models with the same content a formula has the same values and the same failures. -/
theorem value_eq (h : m.SameContent m') (φ : Formula) (w : WorldIndex) :
    φ.value m w = φ.value m' w := by
  induction φ generalizing w with
  | top | bot => simp only [Formula.value, h.twist]
  | atom p => simp only [Formula.value, h.value?_eq, h.worldId_eq]
  | neg φ ih => simp only [Formula.value, h.twist, ih]
  | binary c φ ψ ihφ ihψ => simp only [Formula.value, h.twist, ihφ, ihψ]
  | modal mod action φ ih =>
    simp only [Formula.value, h.twist, h.hasAction_eq, h.successors_eq, h.worldId_eq, ih]

/-- The same outcomes give the same verdict. -/
lemma verdict_eq (h : m.SameContent m')
    {outcome outcome' : WorldIndex → Except EvalError TwistElement}
    (heq : ∀ w < m.worlds.size, outcome w = outcome' w) :
    m.verdict outcome = m'.verdict outcome' := by
  have hvalues : (List.range m.worlds.size).mapM outcome =
      (List.range m'.worlds.size).mapM outcome' := by
    rw [← h.size_eq]
    exact mapM_congr fun w hw => heq w (List.mem_range.mp hw)
  simp only [verdict, hvalues, counterExamples_eq, h.ids, h.twist]

end SameContent

end Model

/-- A check of a stored formula finds what the values of the formula say. -/
lemma FormulaStore.Denotes.findings_checkValidityOn {s : FormulaStore} (hs : s.Built)
    {id : FormulaId} {φ : Formula} (hφ : s.Denotes id φ) {m : Model} {threads : Nat}
    (schedule : Schedule threads m.worlds.size) (memoize : Bool) :
    (m.checkValidityOn schedule s id memoize).map ValidityReport.findings =
      m.verdict (φ.value m) := by
  rw [Model.findings_checkValidityOn hs]
  exact (Model.SameContent.refl m).verdict_eq fun w hw => hφ.valueAt_eq hw

/-- A check finds a stored formula valid exactly if it is absolutely true at all worlds. -/
lemma FormulaStore.Denotes.valid_iff {s : FormulaStore} (hs : s.Built) {id : FormulaId}
    {φ : Formula} (hφ : s.Denotes id φ) {m : Model} {threads : Nat}
    (schedule : Schedule threads m.worlds.size) (memoize : Bool) :
    (∃ r, m.checkValidityOn schedule s id memoize = .ok r ∧ r.valid = true) ↔
      ∀ w < m.worlds.size, φ.value m w = .ok m.twist.absoluteTrue := by
  have hfindings := hφ.findings_checkValidityOn hs schedule memoize
  constructor
  · rintro ⟨r, hr, hvalid⟩
    rw [hr] at hfindings
    obtain ⟨values, hvalues, hfound⟩ := bind_eq_ok_iff.mp hfindings.symm
    obtain ⟨v, hv, rfl⟩ := exists_map_of_mapM_eq_ok m.twist.absoluteTrue hvalues
    have hnone : m.counterExamples ((List.range m.worlds.size).map v) = [] :=
      (congrArg Findings.counterExamples (Except.ok.inj hfound)).trans (List.isEmpty_iff.mp hvalid)
    intro w hw
    rw [hv w (List.mem_range.mpr hw), Model.counterExamples_eq_nil_iff.mp hnone (v w)
      (List.mem_map_of_mem (List.mem_range.mpr hw))]
  · intro hvalue
    have hvalues : (List.range m.worlds.size).mapM (φ.value m) =
        .ok ((List.range m.worlds.size).map fun _ => m.twist.absoluteTrue) :=
      mapM_eq_ok_of_forall fun w hw => hvalue w (List.mem_range.mp hw)
    rw [Model.verdict, hvalues] at hfindings
    cases hcheck : m.checkValidityOn schedule s id memoize with
    | error e =>
      rw [hcheck] at hfindings
      cases hfindings
    | ok r =>
      rw [hcheck] at hfindings
      have hfound := congrArg Findings.counterExamples (Except.ok.inj hfindings)
      refine ⟨r, rfl, List.isEmpty_iff.mpr (hfound.trans ?_)⟩
      exact Model.counterExamples_eq_nil_iff.mpr (by simp)

end TwistLogic
