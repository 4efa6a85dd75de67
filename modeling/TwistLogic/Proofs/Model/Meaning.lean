import Mathlib.Data.Set.Insert
import Mathlib.Tactic.Common
import TwistLogic.Proofs.Algebra.Twist
import TwistLogic.Proofs.Model.Edit
import TwistLogic.Proofs.Model.Recall

/-!
# The meaning of formulas

`Formula.HasValue` gives the truth value of a formula at a world by one clause for every form of
formula.  A diamond has the least upper bound of what its transitions contribute and a box the
greatest lower bound, both in the truth order; no order of the transitions and no starting point
occurs in these clauses.  `Formula.faults` lists all that is missing for a value, in the order in
which a reader meets it from left to right and along the transitions.

`Formula.value` is a value in this sense (`value_eq_ok_iff`) or the first fault
(`value_eq_error_iff`), so an evaluator computes the meaning of every formula of the store
(`Evaluator.ask_evaluateAt_iff_hasValue`).
-/

namespace TwistLogic

/-! ## Values and faults -/

/-- The value of a formula at a world of a model. -/
inductive Formula.HasValue (m : Model) : Formula → WorldIndex → TwistElement → Prop
  | top {w : WorldIndex} : HasValue m .top w m.twist.absoluteTrue
  | bot {w : WorldIndex} : HasValue m .bot w m.twist.absoluteFalse
  | atom {p : Text} {w : WorldIndex} {x : TwistElement} :
      m.value? w p = some x → HasValue m (.atom p) w x
  | neg {φ : Formula} {w : WorldIndex} {x : TwistElement} :
      HasValue m φ w x → HasValue m (.neg φ) w (m.twist.negation x)
  | and {φ ψ : Formula} {w : WorldIndex} {x y : TwistElement} :
      HasValue m φ w x → HasValue m ψ w y → HasValue m (.binary .and φ ψ) w (m.twist.meet x y)
  | or {φ ψ : Formula} {w : WorldIndex} {x y : TwistElement} :
      HasValue m φ w x → HasValue m ψ w y → HasValue m (.binary .or φ ψ) w (m.twist.join x y)
  | resImplies {φ ψ : Formula} {w : WorldIndex} {x y : TwistElement} :
      HasValue m φ w x → HasValue m ψ w y →
        HasValue m (.binary .resImplies φ ψ) w (m.twist.implication x y)
  | implies {φ ψ : Formula} {w : WorldIndex} {x y : TwistElement} :
      HasValue m φ w x → HasValue m ψ w y →
        HasValue m (.binary .implies φ ψ) w (m.twist.join (m.twist.negation x) y)
  | iff {φ ψ : Formula} {w : WorldIndex} {x y : TwistElement} :
      HasValue m φ w x → HasValue m ψ w y →
        HasValue m (.binary .iff φ ψ) w
          (m.twist.meet (m.twist.join (m.twist.negation x) y)
            (m.twist.join (m.twist.negation y) x))
  | diamond {action : Text} {φ : Formula} {w : WorldIndex} {v : WorldIndex → TwistElement}
      {x : TwistElement} :
      m.hasAction action = true →
      (∀ tr ∈ m.successors w action, HasValue m φ tr.target (v tr.target)) →
      m.twist.IsLub {y | ∃ tr ∈ m.successors w action, y = m.twist.meet tr.weight (v tr.target)} x →
        HasValue m (.modal .diamond action φ) w x
  | box {action : Text} {φ : Formula} {w : WorldIndex} {v : WorldIndex → TwistElement}
      {x : TwistElement} :
      m.hasAction action = true →
      (∀ tr ∈ m.successors w action, HasValue m φ tr.target (v tr.target)) →
      m.twist.IsGlb
        {y | ∃ tr ∈ m.successors w action, y = m.twist.implication tr.weight (v tr.target)} x →
        HasValue m (.modal .box action φ) w x

/-- All atoms without a value and all unknown actions that a formula meets from a world on.  Behind
an unknown action nothing is met. -/
def Formula.faults (m : Model) : Formula → WorldIndex → List EvalError
  | .top, _ => []
  | .bot, _ => []
  | .atom p, w => if (m.value? w p).isSome then [] else [.undefinedAtom p (m.worldId w)]
  | .neg φ, w => φ.faults m w
  | .binary _ φ ψ, w => φ.faults m w ++ ψ.faults m w
  | .modal _ action φ, w =>
    if m.hasAction action then (m.successors w action).flatMap fun tr => φ.faults m tr.target
    else [.undefinedAction action (m.worldId w)]

/-! ## What a modality gathers -/

/-- If there is a value for every target, one function names them all: the values depend on the
targets, whichever transitions lead there. -/
lemma exists_values_at_targets {P : WorldIndex → TwistElement → Prop} {trs : List Transition}
    (h : ∀ tr ∈ trs, ∃ x, P tr.target x) :
    ∃ v : WorldIndex → TwistElement, ∀ tr ∈ trs, P tr.target (v tr.target) := by
  have : Nonempty TwistElement := ⟨⟨0, 0⟩⟩
  have htarget : ∀ u, (∃ tr ∈ trs, tr.target = u) → ∃ x, P u x := by
    rintro _ ⟨tr, htr, rfl⟩
    exact h tr htr
  choose! v hv using htarget
  exact ⟨v, fun tr htr => hv _ ⟨tr, htr, rfl⟩⟩

namespace Modality

/-- The bound in the truth order that a modality takes. -/
def IsBest (ts : TwistStructure) : Modality → Set TwistElement → TwistElement → Prop
  | .box => ts.IsGlb
  | .diamond => ts.IsLub

variable {ts : TwistStructure} {mod : Modality} {x y : TwistElement}

lemma isBest_unique (hts : ts.Lawful) {S : Set TwistElement} (hx : mod.IsBest ts S x)
    (hy : mod.IsBest ts S y) : x = y := by
  cases mod with
  | box => exact hts.isGlb_unique hx hy
  | diamond => exact hts.isLub_unique hx hy

/-- Without contributions, and also if all of them are vacuous, the best bound is the vacuous
value. -/
lemma isBest_vacuous (hts : ts.Lawful) (mod : Modality) {S : Set TwistElement}
    (hS : ∀ y ∈ S, y = mod.vacuous ts) : mod.IsBest ts S (mod.vacuous ts) := by
  cases mod with
  | box =>
    refine ⟨hts.contains_absoluteTrue, fun y hy => ?_, fun z hz _ => hts.leq_absoluteTrue hz⟩
    rw [hS y hy]
    exact hts.leq_refl hts.contains_absoluteTrue
  | diamond =>
    refine ⟨hts.contains_absoluteFalse, fun y hy => ?_, fun z hz _ => hts.absoluteFalse_leq hz⟩
    rw [hS y hy]
    exact hts.leq_refl hts.contains_absoluteFalse

/-- A transition contributes an element. -/
lemma contains_term (hts : ts.Lawful) (hx : ts.contains x = true) (hy : ts.contains y = true) :
    ts.contains (mod.term ts x y) = true := by
  cases mod with
  | box => exact hts.contains_implication hx hy
  | diamond => exact hts.contains_meet hx hy

/-- Gathering a list gives the best bound of its members; without members, that is the vacuous
value. -/
theorem isBest_gather (hts : ts.Lawful) (mod : Modality) {xs : List TwistElement}
    (hxs : ∀ y ∈ xs, ts.contains y = true) : mod.IsBest ts {y | y ∈ xs} (mod.gather ts xs) := by
  cases xs with
  | nil => exact mod.isBest_vacuous hts (by simp)
  | cons x xs =>
    have hx := hxs x List.mem_cons_self
    have htail : ∀ y ∈ xs, ts.contains y = true := fun y hy => hxs y (List.mem_cons_of_mem x hy)
    cases mod with
    | box => exact hts.isGlb_foldl_meet htail hx
    | diamond => exact hts.isLub_foldl_join htail hx

end Modality

namespace Formula

variable {m : Model} {φ : Formula} {w : WorldIndex} {x : TwistElement}

/-- The two clauses of modalities in one. -/
lemma hasValue_modal_iff {mod : Modality} {action : Text} :
    HasValue m (.modal mod action φ) w x ↔ m.hasAction action = true ∧
      ∃ v : WorldIndex → TwistElement,
        (∀ tr ∈ m.successors w action, φ.HasValue m tr.target (v tr.target)) ∧
        mod.IsBest m.twist
          {y | ∃ tr ∈ m.successors w action, y = mod.term m.twist tr.weight (v tr.target)} x := by
  constructor
  · rintro (_ | _)
    case diamond v haction hv hx => exact ⟨haction, v, hv, hx⟩
    case box v haction hv hx => exact ⟨haction, v, hv, hx⟩
  · rintro ⟨haction, v, hv, hx⟩
    cases mod with
    | box => exact .box haction hv hx
    | diamond => exact .diamond haction hv hx

/-- The clauses of connectives in one. -/
lemma hasValue_binary_iff {c : Connective} {ψ : Formula} :
    HasValue m (.binary c φ ψ) w x ↔ ∃ y z, φ.HasValue m w y ∧ ψ.HasValue m w z ∧
      c.value m.twist y z = x := by
  constructor
  · intro h
    cases h with
    | and hφ hψ => exact ⟨_, _, hφ, hψ, rfl⟩
    | or hφ hψ => exact ⟨_, _, hφ, hψ, rfl⟩
    | resImplies hφ hψ => exact ⟨_, _, hφ, hψ, rfl⟩
    | implies hφ hψ => exact ⟨_, _, hφ, hψ, rfl⟩
    | iff hφ hψ => exact ⟨_, _, hφ, hψ, rfl⟩
  · rintro ⟨y, z, hφ, hψ, rfl⟩
    cases c with
    | and => exact .and hφ hψ
    | or => exact .or hφ hψ
    | resImplies => exact .resImplies hφ hψ
    | implies => exact .implies hφ hψ
    | iff => exact .iff hφ hψ

/-- Values are elements of the twist structure. -/
theorem HasValue.contains (hts : m.twist.Lawful) (hm : m.WellFormed) (h : φ.HasValue m w x) :
    m.twist.contains x = true := by
  induction h with
  | top => exact hts.contains_absoluteTrue
  | bot => exact hts.contains_absoluteFalse
  | atom hx => exact hm.value_mem _ _ _ hx
  | neg => exact hts.contains_negation _
  | and _ _ ihφ ihψ => exact hts.contains_meet ihφ ihψ
  | or _ _ ihφ ihψ => exact hts.contains_join ihφ ihψ
  | resImplies _ _ ihφ ihψ => exact hts.contains_implication ihφ ihψ
  | implies _ _ ihφ ihψ => exact hts.contains_join (hts.contains_negation _) ihψ
  | iff _ _ ihφ ihψ =>
    exact hts.contains_meet (hts.contains_join (hts.contains_negation _) ihψ)
      (hts.contains_join (hts.contains_negation _) ihφ)
  | diamond _ _ hx => exact hx.contains
  | box _ _ hx => exact hx.contains

/-- Gathering what the transitions contribute gives its best bound. -/
lemma isBest_gather_terms (hts : m.twist.Lawful) (hm : m.WellFormed) (mod : Modality)
    {action : Text} {v : WorldIndex → TwistElement}
    (hv : ∀ tr ∈ m.successors w action, φ.HasValue m tr.target (v tr.target)) :
    mod.IsBest m.twist
      {y | ∃ tr ∈ m.successors w action, y = mod.term m.twist tr.weight (v tr.target)}
      (mod.gather m.twist
        ((m.successors w action).map fun tr => mod.term m.twist tr.weight (v tr.target))) := by
  have hterm : ∀ y ∈ (m.successors w action).map fun tr =>
      mod.term m.twist tr.weight (v tr.target), m.twist.contains y = true := by
    intro y hy
    obtain ⟨tr, htr, rfl⟩ := List.mem_map.mp hy
    exact Modality.contains_term hts (hm.weight_mem _ _ _ htr) ((hv tr htr).contains hts hm)
  simpa only [List.mem_map, eq_comm] using Modality.isBest_gather hts mod hterm

/-! ## Computed values -/

/-- The value of a modality is gathered from the values at the targets. -/
lemma value_modal_eq {mod : Modality} {action : Text} (haction : m.hasAction action = true)
    {v : WorldIndex → TwistElement}
    (hv : ∀ tr ∈ m.successors w action, φ.value m tr.target = .ok (v tr.target)) :
    (modal mod action φ).value m w = .ok (mod.gather m.twist
      ((m.successors w action).map fun tr => mod.term m.twist tr.weight (v tr.target))) := by
  have hterms : ((m.successors w action).mapM fun tr => do
      let x ← φ.value m tr.target
      return mod.term m.twist tr.weight x) =
      .ok ((m.successors w action).map fun tr => mod.term m.twist tr.weight (v tr.target)) := by
    refine mapM_eq_ok_of_forall fun tr htr => ?_
    rw [hv tr htr]
    rfl
  simp only [value, haction, if_true, hterms]
  rfl

/-- A modality has a value only if its action is known and there are values at all targets. -/
lemma exists_values_of_value_modal_eq_ok {mod : Modality} {action : Text}
    (h : (modal mod action φ).value m w = .ok x) :
    m.hasAction action = true ∧ ∃ v : WorldIndex → TwistElement,
      ∀ tr ∈ m.successors w action, φ.value m tr.target = .ok (v tr.target) := by
  by_cases haction : m.hasAction action
  · simp only [value, haction, if_true, bind_eq_ok_iff] at h
    obtain ⟨terms, hterms, -⟩ := h
    have hvalues : ∀ tr ∈ m.successors w action, ∃ y, φ.value m tr.target = .ok y := by
      intro tr htr
      obtain ⟨term, hterm⟩ := exists_eq_ok_of_mapM_eq_ok hterms htr
      obtain ⟨y, hy, -⟩ := bind_eq_ok_iff.mp hterm
      exact ⟨y, hy⟩
    exact ⟨haction, exists_values_at_targets (P := fun u y => φ.value m u = .ok y) hvalues⟩
  · simp [value, haction] at h

/-- A formula has exactly the value that is computed. -/
theorem value_eq_ok_iff (hts : m.twist.Lawful) (hm : m.WellFormed) :
    φ.value m w = .ok x ↔ φ.HasValue m w x := by
  induction φ generalizing w x with
  | top =>
    constructor
    · rintro ⟨⟩
      exact .top
    · rintro ⟨⟩
      rfl
  | bot =>
    constructor
    · rintro ⟨⟩
      exact .bot
    · rintro ⟨⟩
      rfl
  | atom p =>
    simp only [value]
    constructor
    · intro h
      split at h
      next y hy =>
        cases h
        exact .atom hy
      next => simp at h
    · rintro (_ | _ | hx)
      rw [hx]
  | neg φ ih =>
    simp only [value, bind_eq_ok_iff, pure_eq_ok_iff, ih]
    constructor
    · rintro ⟨y, hy, rfl⟩
      exact .neg hy
    · rintro (_ | _ | _ | hy)
      exact ⟨_, hy, rfl⟩
  | binary c φ ψ ihφ ihψ =>
    simp only [value, bind_eq_ok_iff, pure_eq_ok_iff, ihφ, ihψ, hasValue_binary_iff]
    constructor
    · rintro ⟨y, hy, z, hz, rfl⟩
      exact ⟨y, z, hy, hz, rfl⟩
    · rintro ⟨y, z, hy, hz, rfl⟩
      exact ⟨y, hy, z, hz, rfl⟩
  | modal mod action φ ih =>
    rw [hasValue_modal_iff]
    constructor
    · intro h
      obtain ⟨haction, v, hv⟩ := exists_values_of_value_modal_eq_ok h
      have hval : ∀ tr ∈ m.successors w action, φ.HasValue m tr.target (v tr.target) :=
        fun tr htr => ih.mp (hv tr htr)
      rw [value_modal_eq haction hv, Except.ok.injEq] at h
      exact ⟨haction, v, hval, h ▸ isBest_gather_terms hts hm mod hval⟩
    · rintro ⟨haction, v, hv, hx⟩
      -- the set of contributions has only one best bound, and gathering computes it
      rw [value_modal_eq haction fun tr htr => ih.mpr (hv tr htr),
        Modality.isBest_unique hts hx (isBest_gather_terms hts hm mod hv)]

/-- A formula has at most one value at a world. -/
lemma HasValue.unique (hts : m.twist.Lawful) (hm : m.WellFormed) {y : TwistElement}
    (hx : φ.HasValue m w x) (hy : φ.HasValue m w y) : x = y := by
  rw [← value_eq_ok_iff hts hm] at hx hy
  exact Except.ok.inj (hx.symm.trans hy)

/-! ## Computed failures -/

/-- The error of a formula is its first fault. -/
lemma error?_value (m : Model) (φ : Formula) (w : WorldIndex) :
    error? (φ.value m w) = (φ.faults m w).head? := by
  induction φ generalizing w with
  | top => rfl
  | bot => rfl
  | atom p =>
    simp only [value, faults]
    cases m.value? w p <;> rfl
  | neg φ ih => rw [value, error?_bind_pure, ih, faults]
  | binary c φ ψ ihφ ihψ =>
    rw [value, error?_bind_bind_pure, ihφ, ihψ, faults, List.head?_append]
  | modal mod action φ ih =>
    simp only [value, faults]
    split
    · rw [error?_bind_pure]
      refine error?_mapM fun tr => ?_
      rw [error?_bind_pure, ih]
    · rfl

/-- A formula has no value exactly if it has a fault, and the failure is the first one. -/
theorem value_eq_error_iff {e : EvalError} :
    φ.value m w = .error e ↔ (φ.faults m w).head? = some e := by
  rw [← error?_eq_some_iff, error?_value]

/-- Without modalities, the faults are the atoms that the world itself gives no value. -/
lemma faults_of_actions_eq_nil (hactions : φ.actions = []) (w : WorldIndex) :
    φ.faults m w = (φ.atoms.filter fun p => (m.value? w p).isNone).map
      fun p => .undefinedAtom p (m.worldId w) := by
  induction φ with
  | top | bot => rfl
  | atom p => cases h : m.value? w p <;> simp [faults, atoms, h]
  | neg φ ih => exact ih hactions
  | binary c φ ψ ihφ ihψ =>
    simp only [actions, List.append_eq_nil_iff] at hactions
    rw [faults, ihφ hactions.1, ihψ hactions.2, atoms, List.filter_append, List.map_append]
  | modal => simp [actions] at hactions

end Formula

/-! ## Evaluation -/

/-- The values of stored formulas are elements of the twist structure. -/
lemma FormulaStore.contains_of_valueAt_eq_ok {s : FormulaStore} {m : Model} (hts : m.twist.Lawful)
    (hm : m.WellFormed) {id : FormulaId} {w : WorldIndex} {x : TwistElement}
    (h : s.valueAt m id w = .ok x) : m.twist.contains x = true := by
  unfold valueAt at h
  split at h
  · simp at h
  · split at h
    next φ _ => exact ((Formula.value_eq_ok_iff hts hm).mp h).contains hts hm
    next => simp at h

/-- An evaluator that has just started computes the meaning of every stored formula at every world:
the answer is the value of the formula that the number stands for, or its first fault. -/
theorem Evaluator.ask_evaluateAt_iff_hasValue {ts : TwistStructure} (hts : ts.Generated) {m : Model}
    (hm : Model.Reachable ts m) {s : FormulaStore} (hs : s.Built) {id : FormulaId}
    (hid : id < s.size) {w : WorldIndex} (hw : w < m.worlds.size) (memoize : Bool) :
    ∃ φ, s.Denotes id φ ∧
      (∀ x, ((start m memoize).ask (evaluateAt s m id w)).1 = .ok x ↔ φ.HasValue m w x) ∧
      ∀ e, ((start m memoize).ask (evaluateAt s m id w)).1 = .error e ↔
        (φ.faults m w).head? = some e := by
  obtain ⟨htwist, hwf⟩ := hm.wellFormed
  have hlawful : m.twist.Lawful := htwist ▸ hts.lawful
  obtain ⟨φ, hφ⟩ := hs.exists_denotes id hid
  have hanswer : ((start m memoize).ask (evaluateAt s m id w)).1 = φ.value m w := by
    rw [((coherent_start s m memoize).ask_evaluateAt hs id w).1, FormulaStore.valueAt,
      if_neg (Nat.not_le.mpr hw), FormulaStore.tree?_eq_some_iff.mpr hφ]
  refine ⟨φ, hφ, fun x => ?_, fun e => ?_⟩
  · rw [hanswer]
    exact Formula.value_eq_ok_iff hlawful hwf
  · rw [hanswer]
    exact Formula.value_eq_error_iff

/-! ## A circular model -/

/-- The edits that make two worlds out of nothing.  The first sees itself and the second, the
second sees the first, and `q` has a value at the second only. -/
def Edit.seesaw : List Edit :=
  [.addWorlds [⟨ascii "u", ∅⟩, ⟨ascii "v", ∅⟩],
    .assign (ascii "u") (ascii "p") ⟨1, 0⟩,
    .assign (ascii "v") (ascii "p") ⟨1, 1⟩,
    .assign (ascii "v") (ascii "q") ⟨0, 0⟩,
    .addRelation (ascii "u") (ascii "v") (ascii "a") ⟨1, 0⟩,
    .addRelation (ascii "u") (ascii "u") (ascii "a") ⟨1, 1⟩,
    .addRelation (ascii "v") (ascii "u") (ascii "a") ⟨1, 0⟩]

/-- The model that these edits make over the structure of four values. -/
def Model.seesaw : Model :=
  (Edit.seesaw.foldlM Edit.apply (.empty .fourValued)).toOption.getD (.empty .fourValued)

lemma Model.reachable_seesaw : Reachable .fourValued seesaw := reachable_made Edit.seesaw

/-- Along the circle a diamond under a box has a value, and a diamond over `q` has none, because the
second transition leads to a world without a value for `q`. -/
theorem Evaluator.ask_evaluateAt_seesaw :
    let φ : Formula := .modal .box (ascii "a") (.modal .diamond (ascii "a") (.atom (ascii "p")))
    let s := FormulaStore.initial.add φ
    (∃ ψ, s.2.Denotes s.1 ψ ∧
      (∀ x, ((start .seesaw true).ask (evaluateAt s.2 .seesaw s.1 0)).1 = .ok x ↔
        ψ.HasValue .seesaw 0 x) ∧
      ∀ e, ((start .seesaw true).ask (evaluateAt s.2 .seesaw s.1 0)).1 = .error e ↔
        (ψ.faults .seesaw 0).head? = some e) ∧
    ((start .seesaw true).ask (evaluateAt s.2 .seesaw s.1 0)).1 = .ok ⟨1, 1⟩ ∧
    (Formula.modal .diamond (ascii "a") (.atom (ascii "q"))).faults .seesaw 0 =
      [.undefinedAtom (ascii "q") (ascii "u")] := by
  intro φ s
  have hid : s.1 < s.2.size := by decide +kernel
  have hw : 0 < Model.seesaw.worlds.size := by decide +kernel
  refine ⟨ask_evaluateAt_iff_hasValue TwistStructure.generated_fourValued Model.reachable_seesaw
    (FormulaStore.Built.initial.add φ) hid hw true, ?_, ?_⟩
  · decide +kernel
  · decide +kernel

end TwistLogic
