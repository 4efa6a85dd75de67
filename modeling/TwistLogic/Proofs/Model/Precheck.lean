import TwistLogic.Proofs.Formula.Reach
import TwistLogic.Proofs.Model.Verdict

/-!
# What a formula needs of a model

`Model.unvalued?` looks for missing values before any evaluation.  It walks over the nodes of a
formula and looks at every world, also at those that no evaluation reaches, and for actions the
names of the formula are compared with those that the model knows.  An evaluation follows the
formula and the transitions and stops at the first thing that it misses.

All that an evaluation misses is named in the formula, and it is missing at a world of the model
(`Model.Lacks`): for transitions do not lead out of a well-formed model
(`Model.Lacks.of_mem_faults`).  So nothing fails unannounced (`Evaluator.precheck_sound`).  Without
modalities every world looks at itself only; then both searches meet the same worlds in the same
order, and the first failure is at the world of the first missing value
(`Model.rel_head?_faults_gaps`).
-/

namespace TwistLogic

/-- Lists that are put together from related parts, of which the same ones are empty, have related
first members. -/
lemma rel_head?_flatMap {ι α β : Type} {R : α → β → Prop} {f : ι → List α} {g : ι → List β}
    (hnil : ∀ i, f i = [] ↔ g i = []) (hrel : ∀ i, ∀ a ∈ f i, ∀ b ∈ g i, R a b) (is : List ι) :
    Option.Rel R (is.flatMap f).head? (is.flatMap g).head? := by
  induction is with
  | nil => exact .none
  | cons i is ih =>
    rw [List.flatMap_cons, List.flatMap_cons]
    cases hf : f i with
    | nil =>
      rw [(hnil i).mp hf]
      exact ih
    | cons a as =>
      have hne : g i ≠ [] := fun hg => by simp [(hnil i).mpr hg] at hf
      obtain ⟨b, bs, hg⟩ := List.exists_cons_of_ne_nil hne
      rw [hg]
      exact .some (hrel i a (hf ▸ List.mem_cons_self) b (hg ▸ List.mem_cons_self))

namespace Model

variable {m : Model} {atoms actions : List Text} {φ : Formula} {w : WorldIndex} {e : EvalError}

/-! ## What is missing -/

/-- What an error says is true: one of certain atoms has no value at a world of the model, or one of
certain actions is unknown. -/
inductive Lacks (m : Model) (atoms actions : List Text) : EvalError → Prop
  | atom {p : Text} {u : WorldIndex} : p ∈ atoms → u < m.worlds.size → m.value? u p = none →
      Lacks m atoms actions (.undefinedAtom p (m.worldId u))
  | action {action : Text} {u : WorldIndex} : action ∈ actions → u < m.worlds.size →
      m.hasAction action = false → Lacks m atoms actions (.undefinedAction action (m.worldId u))

/-- The names may be taken from a larger formula. -/
lemma Lacks.mono {atoms' actions' : List Text} (h : m.Lacks atoms actions e)
    (hatoms : atoms ⊆ atoms') (hactions : actions ⊆ actions') : m.Lacks atoms' actions' e := by
  cases h with
  | atom hp hu hnone => exact .atom (hatoms hp) hu hnone
  | action ha hu hno => exact .action (hactions ha) hu hno

/-- From a world of a well-formed model on, a formula misses only what it names. -/
theorem Lacks.of_mem_faults (hm : m.WellFormed) (hw : w < m.worlds.size)
    (he : e ∈ φ.faults m w) : m.Lacks φ.atoms φ.actions e := by
  induction φ generalizing w with
  | top | bot => simp [Formula.faults] at he
  | atom p =>
    cases hvalue : m.value? w p with
    | some x => simp [Formula.faults, hvalue] at he
    | none =>
      obtain rfl : e = .undefinedAtom p (m.worldId w) := by simpa [Formula.faults, hvalue] using he
      exact .atom (List.mem_singleton_self p) hw hvalue
  | neg φ ih => exact ih hw he
  | binary c φ ψ ihφ ihψ =>
    rcases List.mem_append.mp he with he | he
    · exact (ihφ hw he).mono (List.subset_append_left _ _) (List.subset_append_left _ _)
    · exact (ihψ hw he).mono (List.subset_append_right _ _) (List.subset_append_right _ _)
  | modal mod action φ ih =>
    cases haction : m.hasAction action with
    | true =>
      -- the fault is met at the target of a transition, which is a world again
      simp only [Formula.faults, haction, if_true, List.mem_flatMap] at he
      obtain ⟨tr, htr, he⟩ := he
      exact (ih (hm.target_lt w action tr htr) he).mono (List.Subset.refl _)
        (List.subset_cons_self _ _)
    | false =>
      obtain rfl : e = .undefinedAction action (m.worldId w) := by
        simpa [Formula.faults, haction] using he
      exact .action List.mem_cons_self hw haction

/-- The worlds with those of the given atoms that they give no value. -/
def gaps (m : Model) (atoms : List Text) (w : WorldIndex) : List (Text × Text) :=
  (atoms.filter fun p => (m.value? w p).isNone).map fun p => (m.worldId w, p)

lemma mem_gaps {gap : Text × Text} :
    gap ∈ m.gaps atoms w ↔ ∃ p ∈ atoms, m.value? w p = none ∧ (m.worldId w, p) = gap := by
  simp only [gaps, List.mem_map, List.mem_filter, Option.isNone_iff_eq_none, and_assoc]

/-- A value that an atom has at no world is missing in the list of all worlds. -/
lemma mem_missing {p : Text} (hp : p ∈ atoms) (hw : w < m.worlds.size)
    (hnone : m.value? w p = none) :
    (m.worldId w, p) ∈ (List.range m.worlds.size).flatMap (m.gaps (Text.sortedSet atoms)) := by
  have hgap : (m.worldId w, p) ∈ m.gaps (Text.sortedSet atoms) w :=
    mem_gaps.mpr ⟨p, Text.mem_sortedSet.mpr hp, hnone, rfl⟩
  exact List.mem_flatMap.mpr ⟨w, List.mem_range.mpr hw, hgap⟩

/-- The list of missing values puts together those of the single worlds. -/
lemma unvalued?_eq {s : FormulaStore} (hs : s.Built) {id : FormulaId} (hφ : s.Denotes id φ) :
    m.unvalued? s id =
      some ((List.range m.worlds.size).flatMap (m.gaps (Text.sortedSet φ.atoms))) := by
  rw [unvalued?, hs.atoms?_eq hφ, Option.map_some, toList_worlds, List.flatMap_map]
  refine congrArg some (List.flatMap_congr fun w hw => ?_)
  have hlt : w < m.worlds.size := List.mem_range.mp hw
  simp [gaps, value?, worldId, hlt, ← Option.not_isSome]

/-- Without modalities, the first failure is at the world of the first missing value. -/
lemma rel_head?_faults_gaps (hactions : φ.actions = []) (ws : List WorldIndex) :
    Option.Rel (fun e (gap : Text × Text) => ∃ p, e = .undefinedAtom p gap.1)
      (ws.flatMap (φ.faults m)).head?
      (ws.flatMap (m.gaps (Text.sortedSet φ.atoms))).head? := by
  refine rel_head?_flatMap (fun w => ?_) (fun w e he gap hgap => ?_) ws
  · simp only [Formula.faults_of_actions_eq_nil hactions, gaps, List.map_eq_nil_iff,
      List.filter_eq_nil_iff, Text.mem_sortedSet]
  · rw [Formula.faults_of_actions_eq_nil hactions] at he
    obtain ⟨p, -, rfl⟩ := List.mem_map.mp he
    obtain ⟨q, -, -, rfl⟩ := mem_gaps.mp hgap
    exact ⟨p, rfl⟩

end Model

/-! ## Failures -/

/-- The error with which some evaluation of a formula, at a world given by its number or by its
name, or some check of it at all worlds fails. -/
inductive FormulaStore.Fails (s : FormulaStore) (m : Model) (id : FormulaId) : EvalError → Prop
  | evaluateAt {ev : Evaluator} {w : WorldIndex} {e : EvalError} : ev.Coherent s m →
      (ev.ask (Evaluator.evaluateAt s m id w)).1 = .error e → Fails s m id e
  | evaluate {ev : Evaluator} {world : Text} {e : EvalError} : ev.Coherent s m →
      (ev.ask (Evaluator.evaluate s m id world)).1 = .error e → Fails s m id e
  | check {threads : Nat} {schedule : Schedule threads m.worlds.size} {memoize : Bool}
      {e : EvalError} : m.checkValidityOn schedule s id memoize = .error e → Fails s m id e

section Failure

variable {s : FormulaStore} {m : Model} {id : FormulaId} {φ : Formula} {e : EvalError}

/-- A check fails with the first fault of all worlds. -/
lemma Model.error?_checkValidityOn (hs : s.Built) (hφ : s.Denotes id φ) {threads : Nat}
    (schedule : Schedule threads m.worlds.size) (memoize : Bool) :
    error? (m.checkValidityOn schedule s id memoize) =
      ((List.range m.worlds.size).flatMap (φ.faults m)).head? := by
  have hfindings := hφ.findings_checkValidityOn hs schedule memoize
  rw [← error?_mapM (φ.error?_value m)]
  rw [← error?_bind_pure (m.checkValidityOn schedule s id memoize) ValidityReport.findings]
  refine (congrArg error? hfindings).trans ?_
  exact error?_bind_pure _ _

/-- A failure is a fault at some world, unless there is no world of the given name or number. -/
lemma FormulaStore.Fails.exists_fault (h : s.Fails m id e) (hs : s.Built) (hφ : s.Denotes id φ)
    (hknown : ∀ world, e ≠ .unknownWorld world) : ∃ w < m.worlds.size, e ∈ φ.faults m w := by
  have hvalueAt : ∀ w, s.valueAt m id w = .error e → ∃ w < m.worlds.size, e ∈ φ.faults m w := by
    intro w hw
    by_cases hlt : w < m.worlds.size
    · rw [hφ.valueAt_eq hlt, Formula.value_eq_error_iff] at hw
      exact ⟨w, hlt, List.mem_of_head? hw⟩
    · rw [valueAt, if_pos (Nat.not_lt.mp hlt), Except.error.injEq] at hw
      exact absurd hw.symm (hknown _)
  cases h with
  | @evaluateAt ev w _ hev he =>
    rw [(hev.ask_evaluateAt hs id w).1] at he
    exact hvalueAt w he
  | @evaluate ev world _ hev he =>
    rw [(hev.ask_evaluate hs id world).1, valueIn] at he
    split at he
    next w _ => exact hvalueAt w he
    next => exact absurd (Except.error.inj he).symm (hknown world)
  | check he =>
    rw [← error?_eq_some_iff, Model.error?_checkValidityOn hs hφ] at he
    obtain ⟨w, hw, he⟩ := List.mem_flatMap.mp (List.mem_of_head? he)
    exact ⟨w, List.mem_range.mp hw, he⟩

/-- If no value is missing and all actions are known, nothing fails. -/
lemma Formula.faults_eq_nil_of_gaps (hm : m.WellFormed)
    (hgaps : (List.range m.worlds.size).flatMap (m.gaps (Text.sortedSet φ.atoms)) = [])
    (hknown : ∀ action ∈ Text.sortedSet φ.actions, m.hasAction action = true) :
    ∀ w < m.worlds.size, φ.faults m w = [] := by
  refine fun w hw => List.eq_nil_iff_forall_not_mem.mpr fun e he => ?_
  cases Model.Lacks.of_mem_faults hm hw he with
  | atom hp hu hnone =>
    have hgap := Model.mem_missing hp hu hnone
    rw [hgaps] at hgap
    exact List.not_mem_nil hgap
  | action ha _ hno =>
    rw [hknown _ (Text.mem_sortedSet.mpr ha)] at hno
    cases hno

end Failure

/-- The missing values and the unknown actions of a formula announce all failures.  If there are
none, every evaluation at a world and every check succeeds.  An atom that some evaluation or check
misses at a world is listed with this world, and an action that it misses is one of the formula that
the model does not know.  Without modalities, a check fails exactly if some value is missing, and
then at the world that the list starts with. -/
theorem Evaluator.precheck_sound {ts : TwistStructure} {m : Model} (hm : Model.Reachable ts m)
    {s : FormulaStore} (hs : s.Built) {id : FormulaId} (hid : id < s.size) :
    ∃ missing actions, m.unvalued? s id = some missing ∧ s.actions? id = some actions ∧
      (missing = [] → (∀ action ∈ actions, m.hasAction action = true) →
        (∀ ev : Evaluator, ev.Coherent s m → ∀ w < m.worlds.size,
          ∃ x, (ev.ask (evaluateAt s m id w)).1 = .ok x) ∧
        ∀ (threads : Nat) (schedule : Schedule threads m.worlds.size) (memoize : Bool),
          ∃ r, m.checkValidityOn schedule s id memoize = .ok r) ∧
      (∀ p world, s.Fails m id (.undefinedAtom p world) → (world, p) ∈ missing) ∧
      (∀ action world, s.Fails m id (.undefinedAction action world) →
        action ∈ actions ∧ m.hasAction action = false) ∧
      (actions = [] →
        ∀ (threads : Nat) (schedule : Schedule threads m.worlds.size) (memoize : Bool),
          ((∃ e, m.checkValidityOn schedule s id memoize = .error e) ↔ missing ≠ []) ∧
          ∀ e, m.checkValidityOn schedule s id memoize = .error e →
            ∃ p world q rest, e = .undefinedAtom p world ∧ missing = (world, q) :: rest) := by
  obtain ⟨φ, hφ⟩ := hs.exists_denotes id hid
  have hwf : m.WellFormed := hm.wellFormed.2
  refine ⟨_, _, Model.unvalued?_eq hs hφ, hs.actions?_eq hφ, ?_, ?_, ?_, ?_⟩
  · intro hmissing hknown
    have hnone := Formula.faults_eq_nil_of_gaps hwf hmissing hknown
    constructor
    · intro ev hev w hw
      rw [(hev.ask_evaluateAt hs id w).1, hφ.valueAt_eq hw, ← error?_eq_none_iff, φ.error?_value,
        hnone w hw, List.head?_nil]
    · intro threads schedule memoize
      rw [← error?_eq_none_iff, Model.error?_checkValidityOn hs hφ, List.head?_eq_none_iff,
        List.flatMap_eq_nil_iff]
      exact fun w hw => hnone w (List.mem_range.mp hw)
  · intro p world hfails
    obtain ⟨w, hw, he⟩ := hfails.exists_fault hs hφ fun _ => nofun
    cases Model.Lacks.of_mem_faults hwf hw he with
    | atom hp hu hnone => exact Model.mem_missing hp hu hnone
  · intro action world hfails
    obtain ⟨w, hw, he⟩ := hfails.exists_fault hs hφ fun _ => nofun
    cases Model.Lacks.of_mem_faults hwf hw he with
    | action ha _ hno => exact ⟨Text.mem_sortedSet.mpr ha, hno⟩
  · intro hactions threads schedule memoize
    have hnil : φ.actions = [] := Text.sortedSet_eq_nil_iff.mp hactions
    have hfirst := Model.rel_head?_faults_gaps (m := m) hnil (List.range m.worlds.size)
    rw [← Model.error?_checkValidityOn hs hφ schedule memoize] at hfirst
    generalize m.checkValidityOn schedule s id memoize = outcome at hfirst ⊢
    generalize (List.range m.worlds.size).flatMap _ = missing at hfirst ⊢
    cases outcome with
    | ok r =>
      cases missing with
      | nil => simp
      | cons gap rest => cases hfirst
    | error e =>
      cases missing with
      | nil => cases hfirst
      | cons gap rest =>
        obtain ⟨p, rfl⟩ : ∃ p, e = .undefinedAtom p gap.1 := by
          cases hfirst with
          | some h => exact h
        exact ⟨by simp, fun e he => ⟨p, gap.1, gap.2, rest, (Except.error.inj he).symm, rfl⟩⟩

/-- In the seesaw `q` has no value at `u`.  A check of a conjunction with `q` fails there by every
schedule, and a check of a diamond over `p` succeeds. -/
theorem Evaluator.precheck_sound_seesaw :
    let s := FormulaStore.initial.add (.binary .and (.atom (ascii "p")) (.atom (ascii "q")))
    let s' := FormulaStore.initial.add (.modal .diamond (ascii "a") (.atom (ascii "p")))
    Model.seesaw.unvalued? s.2 s.1 = some [(ascii "u", ascii "q")] ∧
    (∀ (threads : Nat) (schedule : Schedule threads Model.seesaw.worlds.size) (memoize : Bool),
      ∃ p, Model.seesaw.checkValidityOn schedule s.2 s.1 memoize =
        .error (.undefinedAtom p (ascii "u"))) ∧
    ∀ (threads : Nat) (schedule : Schedule threads Model.seesaw.worlds.size) (memoize : Bool),
      ∃ r, Model.seesaw.checkValidityOn schedule s'.2 s'.1 memoize = .ok r := by
  intro s s'
  have hid : s.1 < s.2.size := by decide +kernel
  have hid' : s'.1 < s'.2.size := by decide +kernel
  obtain ⟨missing, actions, hmissing, hactions, -, -, -, hcheck⟩ :=
    precheck_sound Model.reachable_seesaw (FormulaStore.Built.initial.add _) hid
  obtain ⟨missing', actions', hmissing', hactions', hsound, -⟩ :=
    precheck_sound Model.reachable_seesaw (FormulaStore.Built.initial.add _) hid'
  obtain rfl : [(ascii "u", ascii "q")] = missing :=
    Option.some.inj (Eq.trans (by decide +kernel) hmissing)
  obtain rfl : [] = actions := Option.some.inj (Eq.trans (by decide +kernel) hactions)
  obtain rfl : [] = missing' := Option.some.inj (Eq.trans (by decide +kernel) hmissing')
  obtain rfl : [ascii "a"] = actions' :=
    Option.some.inj (Eq.trans (by decide +kernel) hactions')
  refine ⟨hmissing, fun threads schedule memoize => ?_, (hsound rfl (by decide +kernel)).2⟩
  obtain ⟨hfails, hwhere⟩ := hcheck rfl threads schedule memoize
  obtain ⟨e, he⟩ := hfails.mpr (List.cons_ne_nil _ _)
  obtain ⟨p, world, q, rest, rfl, hlist⟩ := hwhere e he
  obtain rfl : ascii "u" = world := (Prod.mk.inj (List.cons.inj hlist).1).1
  exact ⟨p, he⟩

end TwistLogic
