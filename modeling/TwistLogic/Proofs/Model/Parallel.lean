import TwistLogic.Proofs.Model.Edit
import TwistLogic.Proofs.Model.Recall
import TwistLogic.Proofs.Related

/-!
# Models side by side

Two models are `Parallel` if they have the same worlds and know the same actions, and the
transitions of one run beside those of the other: the same number of them between the same worlds,
in the same order, with weights that stand in a relation.  The twist structures and the values may
differ.

If the operations of the twist structures keep a relation of elements, the values of a formula in
parallel models are related, or missing for the same reason.  This is shown once for every form of
formula.  Constants and modalities ask of a relation that the structures `Keeps` it; how the
relations of the operands of a connective make that of the whole is left to the caller.

All operations keep the relation in which all elements stand.  So formulas in parallel models fail
alike, whatever the operations do (`Formula.fails_alike`).
-/

namespace TwistLogic

/-- The same worlds and actions, and transitions between the same worlds with related weights. -/
structure Model.Parallel (W : TwistElement → TwistElement → Prop) (m m' : Model) : Prop where
  size_eq : m.worlds.size = m'.worlds.size
  worldId_eq : ∀ w, m.worldId w = m'.worldId w
  hasAction_eq : ∀ action, m.hasAction action = m'.hasAction action
  successors : ∀ w action,
    List.Forall₂ (fun tr tr' => tr.target = tr'.target ∧ W tr.weight tr'.weight)
      (m.successors w action) (m'.successors w action)

/-! ## Relations that the modalities keep -/

/-- The absolute values, meets, joins and what weights contribute keep a relation of elements, where
weights stand in a relation of their own. -/
structure TwistStructure.Keeps (ts ts' : TwistStructure)
    (W R : TwistElement → TwistElement → Prop) : Prop where
  absoluteTrue : R ts.absoluteTrue ts'.absoluteTrue
  absoluteFalse : R ts.absoluteFalse ts'.absoluteFalse
  meet : ∀ {x x' y y'}, R x x' → R y y' → R (ts.meet x y) (ts'.meet x' y')
  join : ∀ {x x' y y'}, R x x' → R y y' → R (ts.join x y) (ts'.join x' y')
  weight : ∀ {a a'}, W a a' → R a a'
  implication : ∀ {a a' x x'}, W a a' → R x x' → R (ts.implication a x) (ts'.implication a' x')

namespace TwistStructure.Keeps

variable {ts ts' : TwistStructure} {W R : TwistElement → TwistElement → Prop}
  {a a' x x' y y' : TwistElement}

/-- What a transition contributes. -/
lemma term (h : ts.Keeps ts' W R) (mod : Modality) (ha : W a a') (hx : R x x') :
    R (mod.term ts a x) (mod.term ts' a' x') := by
  cases mod with
  | box => exact h.implication ha hx
  | diamond => exact h.meet (h.weight ha) hx

lemma combine (h : ts.Keeps ts' W R) (mod : Modality) (hx : R x x') (hy : R y y') :
    R (mod.combine ts x y) (mod.combine ts' x' y') := by
  cases mod with
  | box => exact h.meet hx hy
  | diamond => exact h.join hx hy

lemma vacuous (h : ts.Keeps ts' W R) (mod : Modality) : R (mod.vacuous ts) (mod.vacuous ts') := by
  cases mod with
  | box => exact h.absoluteTrue
  | diamond => exact h.absoluteFalse

/-- Gathering corresponding contributions. -/
lemma gather (h : ts.Keeps ts' W R) (mod : Modality) {xs ys : List TwistElement}
    (hxs : List.Forall₂ R xs ys) : R (mod.gather ts xs) (mod.gather ts' ys) := by
  cases hxs with
  | nil => exact h.vacuous mod
  | cons hhead htail =>
    exact List.rel_foldl (P := R) (R := R) (fun _ _ hx _ _ hy => h.combine mod hx hy) hhead htail

/-- All operations keep the relation in which all elements stand. -/
lemma all (ts ts' : TwistStructure) (W : TwistElement → TwistElement → Prop) :
    ts.Keeps ts' W fun _ _ => True where
  absoluteTrue := trivial
  absoluteFalse := trivial
  meet _ _ := trivial
  join _ _ := trivial
  weight _ := trivial
  implication _ _ := trivial

end TwistStructure.Keeps

/-! ## Formulas -/

namespace Formula

variable {m m' : Model} {φ ψ : Formula} {w : WorldIndex}
  {R S T W : TwistElement → TwistElement → Prop}

lemma related_top (h : m.twist.Keeps m'.twist W R) :
    Related R (top.value m w) (top.value m' w) := by
  simp only [value]
  exact .ok h.absoluteTrue

lemma related_bot (h : m.twist.Keeps m'.twist W R) :
    Related R (bot.value m w) (bot.value m' w) := by
  simp only [value]
  exact .ok h.absoluteFalse

lemma related_atom {p : Text} (hid : m.worldId w = m'.worldId w)
    (hp : Option.Rel R (m.value? w p) (m'.value? w p)) :
    Related R ((atom p).value m w) ((atom p).value m' w) := by
  simp only [value]
  generalize m.value? w p = x at hp
  generalize m'.value? w p = y at hp
  cases hp with
  | some hxy => exact .ok hxy
  | none =>
    rw [hid]
    exact .error _

lemma related_neg (hφ : Related R (φ.value m w) (φ.value m' w))
    (hop : ∀ x x', R x x' → T (m.twist.negation x) (m'.twist.negation x')) :
    Related T ((neg φ).value m w) ((neg φ).value m' w) := by
  simp only [value]
  exact hφ.bind_pure hop

lemma related_binary {c : Connective} (hφ : Related R (φ.value m w) (φ.value m' w))
    (hψ : Related S (ψ.value m w) (ψ.value m' w))
    (hop : ∀ x x' y y', R x x' → S y y' → T (c.value m.twist x y) (c.value m'.twist x' y')) :
    Related T ((binary c φ ψ).value m w) ((binary c φ ψ).value m' w) := by
  simp only [value]
  exact hφ.bind fun x x' hx => hψ.bind_pure fun y y' hy => hop x x' y y' hx hy

lemma related_modal {mod : Modality} {action : Text} (h : m.Parallel W m')
    (hkeeps : m.twist.Keeps m'.twist W R) (hφ : ∀ u, Related R (φ.value m u) (φ.value m' u)) :
    Related R ((modal mod action φ).value m w) ((modal mod action φ).value m' w) := by
  simp only [value, h.hasAction_eq action, h.worldId_eq w]
  split
  · have hterms := (h.successors w action).imp fun tr tr' hstep =>
      (hstep.1 ▸ hφ tr.target : Related R (φ.value m tr.target) (φ.value m' tr'.target)).bind_pure
        fun x x' hx => hkeeps.term mod hstep.2 hx
    exact (Related.mapM hterms).bind_pure fun _ _ => hkeeps.gather mod
  · exact .error _

/-- If the same propositions have values in parallel models, a formula has values in both or fails
with the same error in both. -/
theorem fails_alike (h : m.Parallel W m')
    (hvalues : ∀ w p, Option.Rel (fun _ _ => True) (m.value? w p) (m'.value? w p)) (φ : Formula)
    (w : WorldIndex) : Related (fun _ _ => True) (φ.value m w) (φ.value m' w) := by
  have hkeeps := TwistStructure.Keeps.all m.twist m'.twist W
  induction φ generalizing w with
  | top => exact related_top hkeeps
  | bot => exact related_bot hkeeps
  | atom p => exact related_atom (h.worldId_eq w) (hvalues w p)
  | neg φ ih => exact related_neg (ih w) fun _ _ _ => trivial
  | binary c φ ψ ihφ ihψ => exact related_binary (ihφ w) (ihψ w) fun _ _ _ _ _ _ => trivial
  | modal mod action φ ih => exact related_modal h hkeeps ih

end Formula

/-- At every numbered and at every named world, two evaluators of two models give related answers
or fail with the same error. -/
def Evaluator.RelatedAnswers (R : TwistElement → TwistElement → Prop) (s : FormulaStore)
    (id : FormulaId) (m : Model) (ev : Evaluator) (m' : Model) (ev' : Evaluator) : Prop :=
  (∀ w, Related R (ev.ask (evaluateAt s m id w)).1 (ev'.ask (evaluateAt s m' id w)).1) ∧
    ∀ world, Related R (ev.ask (evaluate s m id world)).1 (ev'.ask (evaluate s m' id world)).1

lemma Evaluator.RelatedAnswers.mono {R S : TwistElement → TwistElement → Prop} {s : FormulaStore}
    {id : FormulaId} {m m' : Model} {ev ev' : Evaluator} (h : RelatedAnswers R s id m ev m' ev')
    (hRS : ∀ x y, R x y → S x y) : RelatedAnswers S s id m ev m' ev' :=
  ⟨fun w => (h.1 w).mono hRS, fun world => (h.2 world).mono hRS⟩

namespace Model.Parallel

variable {W R : TwistElement → TwistElement → Prop} {m m' : Model}

/-- Worlds have the same names. -/
lemma ids_eq (h : m.Parallel W m') : m.worlds.map (·.id) = m'.worlds.map (·.id) := by
  refine Array.ext (by simp [h.size_eq]) fun w hw hw' => ?_
  rw [Array.size_map] at hw hw'
  have heq := h.worldId_eq w
  rw [worldId, worldId, Array.getElem?_eq_getElem hw, Array.getElem?_eq_getElem hw'] at heq
  rw [Array.getElem_map, Array.getElem_map]
  exact heq

/-- Worlds have the same numbers. -/
lemma findWorld?_eq (h : m.Parallel W m') (id : Text) : m.findWorld? id = m'.findWorld? id := by
  rw [findWorld?_eq_idxOf?, findWorld?_eq_idxOf?, ids, ids, ← Array.toList_map, ← Array.toList_map,
    h.ids_eq]

/-- The values of stored formulas at numbered and at named worlds are related if those of the
formulas are. -/
lemma related_valueAt (h : m.Parallel W m') {s : FormulaStore} {id : FormulaId}
    (hφ : ∀ φ, s.Denotes id φ → ∀ w, Related R (φ.value m w) (φ.value m' w)) :
    (∀ w, Related R (s.valueAt m id w) (s.valueAt m' id w)) ∧
      ∀ world, Related R (s.valueIn m id world) (s.valueIn m' id world) := by
  have hat : ∀ w, Related R (s.valueAt m id w) (s.valueAt m' id w) := by
    intro w
    simp only [FormulaStore.valueAt, h.size_eq]
    split
    · exact .error _
    · cases htree : s.tree? id with
      | some φ => exact hφ φ (FormulaStore.tree?_eq_some_iff.mp htree) w
      | none => exact .error _
  refine ⟨hat, fun world => ?_⟩
  simp only [FormulaStore.valueIn, h.findWorld?_eq world]
  cases m'.findWorld? world with
  | some w => exact hat w
  | none => exact .error _

/-- So are the answers of coherent evaluators. -/
lemma related_answers (h : m.Parallel W m') {s : FormulaStore} (hs : s.Built) {id : FormulaId}
    (hφ : ∀ φ, s.Denotes id φ → ∀ w, Related R (φ.value m w) (φ.value m' w)) {ev ev' : Evaluator}
    (hev : ev.Coherent s m) (hev' : ev'.Coherent s m') :
    Evaluator.RelatedAnswers R s id m ev m' ev' := by
  obtain ⟨hat, hin⟩ := h.related_valueAt hφ
  constructor
  · intro w
    rw [(hev.ask_evaluateAt hs id w).1, (hev'.ask_evaluateAt hs id w).1]
    exact hat w
  · intro world
    rw [(hev.ask_evaluate hs id world).1, (hev'.ask_evaluate hs id world).1]
    exact hin world

end Model.Parallel

end TwistLogic
