import Mathlib.Data.List.TFAE
import Mathlib.Tactic.Common
import Mathlib.Tactic.TFAE
import TwistLogic.Model.Validity
import TwistLogic.Proofs.Model.Meaning

/-!
# Schedules do not matter

The worlds of a check may be handled by any number of threads in any order.  `Survey.Coherent` is
the invariant of a check in progress: all evaluators are coherent, and the worlds that have been
handled have their own value or error in their places.  A turn extends it by one world
(`Survey.Coherent.turn`), so a schedule, which handles all worlds, fills all places
(`Survey.Coherent.foldl_turn`).

What the report says then depends on the outcomes at the single worlds only
(`Model.checkValidityOn_spec`): the error is that of the first world that fails, and without a
failure the values, the counterexamples and the greatest lower bound are those of the single worlds
(`ValidityReport.Describes`).
-/

namespace TwistLogic

/-! ## Reports -/

/-- A report describes a model if it says of all worlds what the outcomes at the single worlds
say. -/
structure ValidityReport.Describes (r : ValidityReport) (m : Model)
    (outcome : WorldIndex → Except EvalError TwistElement) : Prop where
  /-- Every world has a value, and the values are in the order of the worlds. -/
  values : r.values.map .ok = (List.range m.worlds.size).map outcome
  /-- The counterexamples are the worlds with another value than absolute truth, in order. -/
  counterExamples : r.counterExamples = (List.range m.worlds.size).filterMap fun w =>
    match outcome w with
    | .ok x =>
      if x = m.twist.absoluteTrue then none else some { world := m.worldId w, value := x }
    | .error _ => none
  aggregate : m.twist.IsGlb {x | x ∈ r.values} r.aggregate
  /-- Three ways to say that the formula is valid. -/
  valid : List.TFAE [r.valid = true, r.counterExamples = [],
    ∀ x ∈ r.values, x = m.twist.absoluteTrue, r.aggregate = m.twist.absoluteTrue]

/-! ## Surveys -/

namespace Survey

variable {threads : Nat} {s : FormulaStore} {m : Model} {id : FormulaId}

/-- The evaluators of a survey are coherent, and the worlds in `done` have their values or errors in
their places. -/
structure Coherent (sv : Survey threads) (s : FormulaStore) (m : Model) (id : FormulaId)
    (done : List WorldIndex) : Prop where
  evaluators : ∀ t : Fin threads, sv.evaluators[t].Coherent s m
  size_values : sv.values.size = m.worlds.size
  size_errors : sv.errors.size = m.worlds.size
  values : ∀ w ∈ done, w < m.worlds.size → ∀ x, s.valueAt m id w = .ok x → sv.values[w]? = some x
  errors : ∀ w < m.worlds.size,
    sv.errors[w]? = some (if w ∈ done then error? (s.valueAt m id w) else none)

/-- Before any world has been handled, a survey is coherent. -/
lemma coherent_blankSurvey (memoize : Bool) :
    (m.blankSurvey threads memoize).Coherent s m id [] where
  evaluators t := by
    simp only [Model.blankSurvey, Fin.getElem_fin, Vector.getElem_replicate]
    exact Evaluator.coherent_start s m memoize
  size_values := by simp [Model.blankSurvey]
  size_errors := by simp [Model.blankSurvey]
  values := by simp
  errors w hw := by simp [Model.blankSurvey, hw]

/-- A turn puts the value or the error of one more world into its place. -/
theorem Coherent.turn (hs : s.Built) {sv : Survey threads} {done : List WorldIndex}
    (h : sv.Coherent s m id done) (t : Fin threads × WorldIndex) :
    (sv.turn s m id t).Coherent s m id (t.2 :: done) := by
  obtain ⟨hr, hev⟩ := (h.evaluators t.1).ask_evaluateAt hs id t.2
  unfold Survey.turn
  rcases hask : sv.evaluators[t.1].ask (Evaluator.evaluateAt s m id t.2) with ⟨r, ev⟩
  rw [hask] at hr hev
  have hevaluators : ∀ u : Fin threads, (sv.evaluators.set t.1 ev)[u].Coherent s m := by
    intro u
    simp only [Fin.getElem_fin, Vector.getElem_set]
    split
    · exact hev
    · exact h.evaluators u
  cases r with
  | ok x =>
    refine ⟨hevaluators, by simp [h.size_values], h.size_errors, ?_, ?_⟩
    · intro w hw hlt y hy
      simp only [Array.getElem?_setIfInBounds]
      split
      next heq =>
        subst heq
        rw [if_pos (h.size_values ▸ hlt), Except.ok.inj (hr.trans hy)]
      next hne =>
        exact h.values w ((List.mem_cons.mp hw).resolve_left fun heq => hne heq.symm) hlt y hy
    · intro w hlt
      rw [h.errors w hlt]
      by_cases hw : w = t.2
      · have hnone : error? (s.valueAt m id w) = none := by rw [hw, ← hr, error?]
        simp [hnone]
      · simp [hw]
  | error e =>
    refine ⟨hevaluators, h.size_values, by simp [h.size_errors], ?_, ?_⟩
    · intro w hw hlt y hy
      rcases List.mem_cons.mp hw with rfl | hw
      · exact absurd (hr.trans hy) (by simp)
      · exact h.values w hw hlt y hy
    · intro w hlt
      simp only [Array.getElem?_setIfInBounds]
      split
      next heq =>
        subst heq
        rw [if_pos (h.size_errors ▸ hlt), if_pos List.mem_cons_self, ← hr, error?]
      next hne =>
        have hmem : w ∈ t.2 :: done ↔ w ∈ done := by
          rw [List.mem_cons, or_iff_right fun heq => hne heq.symm]
        rw [h.errors w hlt]
        simp only [hmem]

/-- All turns of a list handle their worlds. -/
theorem Coherent.foldl_turn (hs : s.Built) {turns : List (Fin threads × WorldIndex)}
    {sv : Survey threads} {done : List WorldIndex} (h : sv.Coherent s m id done) :
    (turns.foldl (Survey.turn s m id) sv).Coherent s m id
      ((turns.map Prod.snd).reverse ++ done) := by
  induction turns generalizing sv done with
  | nil => exact h
  | cons t turns ih =>
    rw [List.map_cons, List.reverse_cons, List.append_assoc]
    exact ih (h.turn hs t)

/-- A survey by a schedule has the outcome at every world in the place of the world. -/
lemma coherent_surveyOn (hs : s.Built) (id : FormulaId)
    (schedule : Schedule threads m.worlds.size) (memoize : Bool) :
    ∃ done, (m.surveyOn schedule s id memoize).Coherent s m id done ∧
      ∀ w < m.worlds.size, w ∈ done := by
  refine ⟨_, (coherent_blankSurvey memoize).foldl_turn hs, fun w hw => ?_⟩
  rw [List.append_nil, List.mem_reverse, schedule.perm.mem_iff]
  exact List.mem_range.mpr hw

/-- The errors of a survey of all worlds, in the order of the worlds. -/
lemma Coherent.errors_toList {sv : Survey threads} {done : List WorldIndex}
    (h : sv.Coherent s m id done) (hdone : ∀ w < m.worlds.size, w ∈ done) :
    sv.errors.toList = (List.range m.worlds.size).map fun w => error? (s.valueAt m id w) := by
  refine List.ext_getElem (by simp [h.size_errors]) fun w hw _ => ?_
  have hlt : w < m.worlds.size := by simpa [h.size_errors] using hw
  have hget := h.errors w hlt
  rw [if_pos (hdone w hlt), Array.getElem?_eq_some_iff] at hget
  obtain ⟨_, hget⟩ := hget
  simpa using hget

/-- The values of a survey of all worlds without failure, in the order of the worlds. -/
lemma Coherent.values_toList {sv : Survey threads} {done : List WorldIndex}
    (h : sv.Coherent s m id done) (hdone : ∀ w < m.worlds.size, w ∈ done)
    {v : WorldIndex → TwistElement} (hv : ∀ w < m.worlds.size, s.valueAt m id w = .ok (v w)) :
    sv.values.toList = (List.range m.worlds.size).map v := by
  refine List.ext_getElem (by simp [h.size_values]) fun w hw _ => ?_
  have hlt : w < m.worlds.size := by simpa [h.size_values] using hw
  have hget := h.values w (hdone w hlt) hlt (v w) (hv w hlt)
  rw [Array.getElem?_eq_some_iff] at hget
  obtain ⟨_, hget⟩ := hget
  simpa using hget

end Survey

/-! ## What a check reports -/

namespace Model

variable {m : Model}

/-- The worlds of a model in the order of their numbers. -/
lemma toList_worlds (m : Model) : m.worlds.toList =
    (List.range m.worlds.size).map fun w => (m.worlds[w]?).getD ⟨[], ∅, ∅⟩ := by
  refine List.ext_getElem (by simp) fun w hw _ => ?_
  have hlt : w < m.worlds.size := by simpa using hw
  simp [hlt]

/-- The counterexamples among values that are given world by world. -/
lemma counterExamples_map_range (v : WorldIndex → TwistElement) :
    m.counterExamples ((List.range m.worlds.size).map v) =
      (List.range m.worlds.size).filterMap fun w =>
        if v w = m.twist.absoluteTrue then none
        else some { world := m.worldId w, value := v w } := by
  rw [counterExamples, toList_worlds, List.zip_map', List.filterMap_map]
  refine List.filterMap_congr fun w hw => ?_
  have hlt : w < m.worlds.size := List.mem_range.mp hw
  simp [worldId, hlt]

/-- There are no counterexamples exactly if all values are absolute truth. -/
lemma counterExamples_eq_nil_iff {v : WorldIndex → TwistElement} :
    m.counterExamples ((List.range m.worlds.size).map v) = [] ↔
      ∀ x ∈ (List.range m.worlds.size).map v, x = m.twist.absoluteTrue := by
  simp only [counterExamples_map_range, List.filterMap_eq_nil_iff, List.forall_mem_map,
    ite_eq_left_iff, reduceCtorEq, imp_false, not_not]

/-- The report on values that are given world by world describes the model. -/
theorem describes_of_values (hts : m.twist.Lawful)
    {outcome : WorldIndex → Except EvalError TwistElement} {v : WorldIndex → TwistElement}
    (hv : ∀ w < m.worlds.size, outcome w = .ok (v w))
    (hmem : ∀ w < m.worlds.size, m.twist.contains (v w) = true) (stats : EvalStats) :
    let values := (List.range m.worlds.size).map v
    ValidityReport.Describes ⟨m.counterExamples values, values, m.twist.meetAll values, stats⟩ m
      outcome := by
  intro values
  have hvalues : ∀ x ∈ values, m.twist.contains x = true := by
    intro x hx
    obtain ⟨w, hw, rfl⟩ := List.mem_map.mp hx
    exact hmem w (List.mem_range.mp hw)
  have hglb := hts.isGlb_meetAll hvalues
  refine ⟨?_, ?_, hglb, ?_⟩
  · rw [List.map_map]
    exact List.map_congr_left fun w hw => (hv w (List.mem_range.mp hw)).symm
  · refine (counterExamples_map_range v).trans (List.filterMap_congr fun w hw => ?_)
    rw [hv w (List.mem_range.mp hw)]
  · tfae_have 1 ↔ 2 := List.isEmpty_iff
    tfae_have 2 ↔ 3 := counterExamples_eq_nil_iff
    tfae_have 4 ↔ 3 := hts.isGlb_eq_absoluteTrue_iff hvalues hglb
    tfae_finish

/-- A check by any schedule has the outcome that new evaluators without memory have at the single
worlds: it fails exactly if one of them fails, with the error at the first world that does, and its
report describes what they return. -/
theorem checkValidityOn_spec {ts : TwistStructure} (hts : ts.Generated)
    (hm : Model.Reachable ts m) {s : FormulaStore} (hs : s.Built) (id : FormulaId) {threads : Nat}
    (schedule : Schedule threads m.worlds.size) (memoize : Bool) :
    let outcome (w : WorldIndex) := ((Evaluator.start m false).ask (Evaluator.evaluateAt s m id w)).1
    (∀ e, m.checkValidityOn schedule s id memoize = .error e ↔
      ∃ w < m.worlds.size, outcome w = .error e ∧ ∀ u < w, ∃ x, outcome u = .ok x) ∧
    ∀ r, m.checkValidityOn schedule s id memoize = .ok r → r.Describes m outcome := by
  intro outcome
  obtain ⟨htwist, hwf⟩ := hm.wellFormed
  have hlawful : m.twist.Lawful := htwist ▸ hts.lawful
  have houtcome : outcome = s.valueAt m id :=
    funext fun w => ((Evaluator.coherent_start s m false).ask_evaluateAt hs id w).1
  obtain ⟨done, hsv, hdone⟩ := Survey.coherent_surveyOn hs id schedule memoize
  have hfault : ((m.surveyOn schedule s id memoize).errors.toList.findSome? fun e => e) =
      (List.range m.worlds.size).findSome? fun w => error? (outcome w) := by
    rw [hsv.errors_toList hdone, List.findSome?_map, houtcome]
    rfl
  unfold checkValidityOn report
  rw [hfault]
  constructor
  · intro e
    rw [refuse_bind_eq_error_iff, findSome?_range_eq_some_iff]
    simp only [error?_eq_some_iff, error?_eq_none_iff]
  · intro r hr
    simp only [bind_eq_ok_iff, exists_unit_iff, refuse_eq_ok_iff, pure_eq_ok_iff,
      List.findSome?_eq_none_iff, List.mem_range, error?_eq_none_iff] at hr
    obtain ⟨hok, rfl⟩ := hr
    obtain ⟨v, hv⟩ : ∃ v : WorldIndex → TwistElement, ∀ w < m.worlds.size,
        outcome w = .ok (v w) := by
      refine ⟨fun w => (outcome w).toOption.getD m.twist.absoluteTrue, fun w hw => ?_⟩
      obtain ⟨x, hx⟩ := hok w hw
      simp only [hx, Except.toOption, Option.getD_some]
    have hvalue : ∀ w < m.worlds.size, s.valueAt m id w = .ok (v w) := houtcome ▸ hv
    rw [hsv.values_toList hdone hvalue]
    refine describes_of_values hlawful hv (fun w hw => ?_) _
    exact FormulaStore.contains_of_valueAt_eq_ok hlawful hwf (hvalue w hw)

/-- Two threads check that `p` implies itself at the two worlds of the seesaw, the second world
first. -/
theorem checkValidityOn_seesaw :
    let φ : Formula := .binary .resImplies (.atom (ascii "p")) (.atom (ascii "p"))
    let s := FormulaStore.initial.add φ
    let schedule : Schedule 2 Model.seesaw.worlds.size :=
      ⟨[(1, 1), (0, 0)], by decide +kernel⟩
    let outcome (w : WorldIndex) :=
      ((Evaluator.start .seesaw false).ask (Evaluator.evaluateAt s.2 .seesaw s.1 w)).1
    ((∀ e, Model.seesaw.checkValidityOn schedule s.2 s.1 true = .error e ↔
        ∃ w < Model.seesaw.worlds.size, outcome w = .error e ∧ ∀ u < w, ∃ x, outcome u = .ok x) ∧
      ∀ r, Model.seesaw.checkValidityOn schedule s.2 s.1 true = .ok r →
        r.Describes .seesaw outcome) ∧
    ((Model.seesaw.checkValidityOn schedule s.2 s.1 true).toOption.map fun r =>
        (r.values, r.counterExamples, r.aggregate)) =
      some ([⟨1, 0⟩, ⟨1, 1⟩], [⟨ascii "v", ⟨1, 1⟩⟩], ⟨1, 1⟩) := by
  intro φ s schedule outcome
  refine ⟨checkValidityOn_spec TwistStructure.generated_fourValued reachable_seesaw
    (FormulaStore.Built.initial.add φ) s.1 schedule true, ?_⟩
  decide +kernel

end Model

end TwistLogic
