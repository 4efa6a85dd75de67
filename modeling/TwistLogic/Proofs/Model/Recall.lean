import Mathlib.Tactic.Common
import TwistLogic.Model.Evaluator
import TwistLogic.Proofs.Formula.Interning

/-!
# What an evaluator remembers

`Formula.value` is the value of a formula at a world computed from the formula alone, without a
store, a memory or a count.  An evaluator `Knows` a model if every value that it remembers is such a
value.  `Returns` says that a computation of an evaluator has a given outcome and leaves an
evaluator that still knows the model; it is proved once for every step of an evaluation and then
for `Evaluator.valueWithin` by induction on the formula (`returns_valueWithin`).

A model that has changed has another revision, so what matters of an evaluator is that it knows the
model if it has the model's revision.  `Coherent` says this, and `ask_evaluateAt` shows that the
answer of a coherent evaluator is `FormulaStore.valueAt`, whatever it remembers.
-/

namespace TwistLogic

/-! ## Values without memory -/

/-- The value of a formula at a world, or the first failure that is met from left to right. -/
def Formula.value (m : Model) : Formula → WorldIndex → Except EvalError TwistElement
  | .top, _ => .ok m.twist.absoluteTrue
  | .bot, _ => .ok m.twist.absoluteFalse
  | .atom name, w =>
    match m.value? w name with
    | some x => .ok x
    | none => .error (.undefinedAtom name (m.worldId w))
  | .neg φ, w => do
    let x ← φ.value m w
    return m.twist.negation x
  | .binary c φ ψ, w => do
    let x ← φ.value m w
    let y ← ψ.value m w
    return c.value m.twist x y
  | .modal mod action φ, w =>
    if m.hasAction action then do
      let terms ← (m.successors w action).mapM fun tr => do
        let x ← φ.value m tr.target
        return mod.term m.twist tr.weight x
      return mod.gather m.twist terms
    else .error (.undefinedAction action (m.worldId w))

/-- The value of a stored formula at the world with a number. -/
def FormulaStore.valueAt (s : FormulaStore) (m : Model) (id : FormulaId) (w : WorldIndex) :
    Except EvalError TwistElement :=
  if m.worlds.size ≤ w then .error (.unknownWorld (ascii "#" ++ Text.decimal w))
  else match s.tree? id with
    | some φ => φ.value m w
    | none => .error .danglingFormula

/-- At a world of the model, the value of a stored formula is that of the formula. -/
lemma FormulaStore.Denotes.valueAt_eq {s : FormulaStore} {m : Model} {id : FormulaId} {φ : Formula}
    (hφ : s.Denotes id φ) {w : WorldIndex} (hw : w < m.worlds.size) :
    s.valueAt m id w = φ.value m w := by
  rw [valueAt, if_neg (Nat.not_le.mpr hw), tree?_eq_some_iff.mpr hφ]

/-- The value of a stored formula at the world with a name. -/
def FormulaStore.valueIn (s : FormulaStore) (m : Model) (id : FormulaId) (world : Text) :
    Except EvalError TwistElement :=
  match m.findWorld? world with
  | some w => s.valueAt m id w
  | none => .error (.unknownWorld world)

namespace Evaluator

/-! ## Running computations -/

section Ask

variable {α β : Type} (ev : Evaluator)

@[simp] lemma ask_modify (f : Evaluator → Evaluator) : ev.ask (modify f) = (.ok ⟨⟩, f ev) := rfl

@[simp] lemma ask_get : ev.ask get = (.ok ev, ev) := rfl

/-- A computation goes on where its first part has ended, unless that part has failed. -/
lemma ask_bind (c : Evaluation α) (f : α → Evaluation β) :
    ev.ask (c >>= f) =
      match ev.ask c with
      | (.ok a, ev') => ev'.ask (f a)
      | (.error e, ev') => (.error e, ev') := by
  simp only [ask, ExceptT.run_bind, StateT.run_bind]
  rcases StateT.run (ExceptT.run c) ev with ⟨_ | _, _⟩ <;> rfl

end Ask

/-! ## Remembered values -/

/-- Every remembered value is that of the formula that its query asks for. -/
def Knows (s : FormulaStore) (m : Model) (ev : Evaluator) : Prop :=
  ∀ (q : Query) (x : TwistElement), ev.memo[q]? = some x →
    ∃ φ, s.Denotes q.formula φ ∧ φ.value m q.world = .ok x

/-- Run by an evaluator that knows the model, a computation has the outcome `r` and leaves an
evaluator that knows the model. -/
def Returns {α : Type} (s : FormulaStore) (m : Model) (c : Evaluation α) (r : Except EvalError α) :
    Prop :=
  ∀ ev : Evaluator, ev.Knows s m →
    (ev.ask c).1 = r ∧ (ev.ask c).2.Knows s m ∧ (ev.ask c).2.revision = ev.revision

/-- What is known stays known while the store grows. -/
lemma Knows.mono {s s' : FormulaStore} (hs : s.Extends s') {m : Model} {ev : Evaluator}
    (h : ev.Knows s m) : ev.Knows s' m := by
  intro q x hx
  obtain ⟨φ, hφ, hv⟩ := h q x hx
  exact ⟨φ, hφ.mono hs, hv⟩

/-- An evaluator without memory knows every model. -/
lemma knows_of_isEmpty {s : FormulaStore} {m : Model} {ev : Evaluator} (h : ev.memo.isEmpty) :
    ev.Knows s m := by
  intro q x hx
  rw [Std.TreeMap.getElem?_of_isEmpty h] at hx
  exact absurd hx (by simp)

/-- A right value may be remembered. -/
lemma Knows.remember {s : FormulaStore} {m : Model} {ev : Evaluator} (h : ev.Knows s m) {q : Query}
    {φ : Formula} {x : TwistElement} (hφ : s.Denotes q.formula φ)
    (hv : φ.value m q.world = .ok x) : (ev.remember q x).Knows s m := by
  intro p y hy
  simp only [Evaluator.remember, getElem?_insert_eq_ite] at hy
  by_cases hqp : q = p
  · rw [if_pos hqp, Option.some.injEq] at hy
    exact ⟨φ, hqp ▸ hφ, hqp ▸ hy ▸ hv⟩
  · rw [if_neg hqp] at hy
    exact h p y hy

/-! ## Evaluation step by step -/

section Returns

variable {α β ι : Type} {s : FormulaStore} {m : Model}

lemma returns_pure (a : α) : Returns s m (pure a) (.ok a) := fun _ h => ⟨rfl, h, rfl⟩

lemma returns_throw (e : EvalError) : Returns s m (throw e : Evaluation α) (.error e) :=
  fun _ h => ⟨rfl, h, rfl⟩

/-- A computation goes on after its first part exactly if that has a value. -/
lemma Returns.bind {c : Evaluation α} {r : Except EvalError α} {f : α → Evaluation β}
    {g : α → Except EvalError β} (hc : Returns s m c r)
    (hf : ∀ a, r = .ok a → Returns s m (f a) (g a)) : Returns s m (c >>= f) (r >>= g) := by
  intro ev hev
  obtain ⟨hr, hknows, hrev⟩ := hc ev hev
  rw [ask_bind]
  rcases hask : ev.ask c with ⟨_ | a, ev'⟩
  all_goals
    rw [hask] at hr hknows hrev
    subst hr
  · exact ⟨rfl, hknows, hrev⟩
  · obtain ⟨hr', hknows', hrev'⟩ := hf a rfl ev' hknows
    exact ⟨hr', hknows', hrev'.trans hrev⟩

/-- Computations that are run one after the other return the outcomes one after the other. -/
lemma returns_mapM {f : ι → Evaluation α} {g : ι → Except EvalError α}
    (h : ∀ i, Returns s m (f i) (g i)) (is : List ι) : Returns s m (is.mapM f) (is.mapM g) := by
  induction is with
  | nil => exact returns_pure []
  | cons i is ih =>
    rw [List.mapM_cons, List.mapM_cons]
    exact (h i).bind fun a _ => ih.bind fun as _ => returns_pure (a :: as)

/-- Counting changes nothing that is known. -/
lemma returns_count {f : Evaluator → Evaluator} (hmemo : ∀ ev, (f ev).memo = ev.memo)
    (hrev : ∀ ev, (f ev).revision = ev.revision) : Returns s m (modify f) (.ok ⟨⟩) := by
  intro ev hev
  refine ⟨rfl, ?_, hrev ev⟩
  intro q x hx
  exact hev q x (by rwa [ask_modify, hmemo ev] at hx)

/-- A query is answered by its value, from memory or not. -/
lemma returns_answer {q : Query} {φ : Formula} (hφ : s.Denotes q.formula φ)
    {c : Evaluation TwistElement} (hc : Returns s m c (φ.value m q.world)) :
    Returns s m (answer q c) (φ.value m q.world) := by
  have hcount : Returns s m (modify countEvaluation) (.ok ⟨⟩) :=
    returns_count (fun _ => rfl) fun _ => rfl
  intro ev hev
  rw [answer, ask_bind, ask_get]
  by_cases hmemoize : ev.memoize
  · simp only [hmemoize, if_true]
    cases hq : ev.memo[q]? with
    | some x =>
      -- the value was computed before, so it is the value of the only formula of this number
      obtain ⟨ψ, hψ, hv⟩ := hev q x hq
      rw [hφ.unique hψ, hv]
      exact (returns_count (fun _ => rfl) fun _ => rfl).bind (fun _ _ => returns_pure x) ev hev
    | none =>
      have hkeep : ∀ x, φ.value m q.world = .ok x →
          Returns s m (do modify (Evaluator.remember · q x); return x) (.ok x) :=
        fun x hv ev' hev' => ⟨rfl, hev'.remember hφ hv, rfl⟩
      have hbind := hcount.bind fun _ _ => hc.bind (fun x hv => hkeep x hv)
      have hid : (φ.value m q.world >>= fun x => .ok x) = φ.value m q.world := by
        cases φ.value m q.world <;> rfl
      rw [hid] at hbind
      exact hbind ev hev
  · simp only [hmemoize, if_false, Bool.false_eq_true]
    exact hcount.bind (fun _ _ => hc) ev hev

/-- The value of a stored formula is found within any bound that covers the formula. -/
theorem returns_valueWithin {id : FormulaId} {φ : Formula} (hφ : s.Denotes id φ) {fuel : Nat}
    (hf : φ.height ≤ fuel) (w : WorldIndex) :
    Returns s m (valueWithin s m fuel (some id) w) (φ.value m w) := by
  induction hφ generalizing fuel w with
  | top hn hk =>
    obtain ⟨k, rfl⟩ := Formula.exists_fuel_eq_succ hf
    refine returns_answer (.top hn hk) ?_
    simp only [hn, nodeValue, hk, Formula.value]
    exact returns_pure _
  | bot hn hk =>
    obtain ⟨k, rfl⟩ := Formula.exists_fuel_eq_succ hf
    refine returns_answer (.bot hn hk) ?_
    simp only [hn, nodeValue, hk, Formula.value]
    exact returns_pure _
  | @atom _ _ name hn hk =>
    obtain ⟨k, rfl⟩ := Formula.exists_fuel_eq_succ hf
    refine returns_answer (.atom hn hk) ?_
    simp only [hn, nodeValue, hk, Formula.value]
    cases m.value? w name with
    | some x => exact returns_pure x
    | none => exact returns_throw _
  | neg hn hk hl hd ih =>
    obtain ⟨k, rfl⟩ := Formula.exists_fuel_eq_succ hf
    simp only [Formula.height, Nat.add_le_add_iff_right] at hf
    refine returns_answer (.neg hn hk hl hd) ?_
    simp only [hn, nodeValue, hk, hl, Formula.value]
    exact (ih hf w).bind fun x _ => returns_pure _
  | binary hn hk hl hr hd hd' ihl ihr =>
    obtain ⟨k, rfl⟩ := Formula.exists_fuel_eq_succ hf
    simp only [Formula.height, Nat.add_le_add_iff_right, Nat.max_le] at hf
    refine returns_answer (.binary hn hk hl hr hd hd') ?_
    simp only [hn, nodeValue, hk, hl, hr, Formula.value]
    exact (ihl hf.1 w).bind fun x _ => (ihr hf.2 w).bind fun y _ => returns_pure _
  | @modal _ _ _ mod action φ hn hk hl hd ih =>
    obtain ⟨k, rfl⟩ := Formula.exists_fuel_eq_succ hf
    simp only [Formula.height, Nat.add_le_add_iff_right] at hf
    refine returns_answer (.modal hn hk hl hd) ?_
    simp only [hn, nodeValue, hk, hl, Formula.value]
    by_cases hact : m.hasAction action
    · simp only [hact, Bool.not_true, Bool.false_eq_true, if_false, if_true]
      refine (returns_mapM (fun tr => ?_) _).bind fun terms _ => returns_pure _
      exact (ih hf tr.target).bind fun x _ => returns_pure _
    · simp only [hact, Bool.not_false, Bool.false_eq_true, if_false, if_true]
      exact fun ev hev => ⟨rfl, hev, rfl⟩

end Returns

/-! ## Answers of a coherent evaluator -/

/-- An evaluator is not ahead of the model, and if it has the model's revision, it knows the
model. -/
structure Coherent (s : FormulaStore) (m : Model) (ev : Evaluator) : Prop where
  revision_le : ev.revision ≤ m.revision
  knows : ev.revision = m.revision → ev.Knows s m

/-- A new evaluator is coherent. -/
lemma coherent_start (s : FormulaStore) (m : Model) (memoize : Bool) :
    (start m memoize).Coherent s m where
  revision_le := Nat.le_refl _
  knows _ := knows_of_isEmpty (by simp [start])

/-- Forgetting everything keeps an evaluator coherent. -/
lemma Coherent.clearCache {s : FormulaStore} {m : Model} {ev : Evaluator} (h : ev.Coherent s m) :
    ev.clearCache.Coherent s m where
  revision_le := h.revision_le
  knows _ := knows_of_isEmpty (by simp [Evaluator.clearCache])

lemma Coherent.mono {s s' : FormulaStore} (hs : s.Extends s') {m : Model} {ev : Evaluator}
    (h : ev.Coherent s m) : ev.Coherent s' m where
  revision_le := h.revision_le
  knows hrev := (h.knows hrev).mono hs

/-- Synchronising gives a coherent evaluator the model's revision and keeps only what it knows. -/
lemma Coherent.sync {s : FormulaStore} {m : Model} {ev : Evaluator} (h : ev.Coherent s m) :
    (ev.sync m.revision).Knows s m ∧ (ev.sync m.revision).revision = m.revision := by
  unfold Evaluator.sync
  split
  next hrev => exact ⟨h.knows hrev.symm, hrev.symm⟩
  next =>
    split
    next hempty => exact ⟨knows_of_isEmpty hempty, rfl⟩
    next => exact ⟨knows_of_isEmpty (by simp), rfl⟩

/-- A number that names no node has no value. -/
lemma returns_valueWithin_of_node?_eq_none {s : FormulaStore} {m : Model} {id : FormulaId}
    (h : s.node? id = none) (fuel : Nat) (w : WorldIndex) :
    Returns s m (valueWithin s m fuel (some id) w) (.error .danglingFormula) := by
  cases fuel with
  | zero => exact returns_throw _
  | succ fuel =>
    intro ev hev
    simp only [valueWithin, h]
    rw [answer, ask_bind, ask_get]
    by_cases hmemoize : ev.memoize
    · simp only [hmemoize, if_true]
      cases hq : ev.memo[({ formula := id, world := w } : Query)]? with
      | some x =>
        -- only formulas that the store holds are remembered
        obtain ⟨φ, hφ, -⟩ := hev _ x hq
        obtain ⟨n, hn⟩ := FormulaStore.node?_isSome_iff.mpr hφ.lt_size
        exact absurd (h.symm.trans hn) (by simp)
      | none => exact ⟨rfl, hev, rfl⟩
    · simp only [hmemoize, if_false, Bool.false_eq_true]
      exact ⟨rfl, hev, rfl⟩

/-- The answer of a coherent evaluator to a numbered world is the value of the formula, and the
evaluator stays coherent. -/
theorem Coherent.ask_evaluateAt {s : FormulaStore} (hs : s.Built) {m : Model} {ev : Evaluator}
    (h : ev.Coherent s m) (id : FormulaId) (w : WorldIndex) :
    (ev.ask (evaluateAt s m id w)).1 = s.valueAt m id w ∧
      (ev.ask (evaluateAt s m id w)).2.Coherent s m := by
  unfold evaluateAt FormulaStore.valueAt
  by_cases hw : m.worlds.size ≤ w
  · simp only [hw, if_true]
    exact ⟨rfl, h⟩
  · simp only [hw, if_false]
    obtain ⟨hknows, hrev⟩ := h.sync
    have hreturns : Returns s m (valueWithin s m s.size (some id) w)
        (match s.tree? id with
          | some φ => φ.value m w
          | none => .error .danglingFormula) := by
      cases htree : s.tree? id with
      | some φ =>
        have hφ := FormulaStore.tree?_eq_some_iff.mp htree
        exact returns_valueWithin hφ hφ.height_le_size w
      | none =>
        refine returns_valueWithin_of_node?_eq_none ?_ _ _
        rw [Option.eq_none_iff_forall_ne_some]
        intro n hn
        obtain ⟨φ, hφ⟩ := hs.exists_tree?_iff.mpr (FormulaStore.lt_size_of_node? hn)
        exact absurd (htree.symm.trans hφ) (by simp)
    obtain ⟨hr, hknows', hrev'⟩ := hreturns _ hknows
    exact ⟨hr, ⟨Nat.le_of_eq (hrev'.trans hrev), fun _ => hknows'⟩⟩

/-- The answer of a coherent evaluator to a named world is the value of the formula, and the
evaluator stays coherent. -/
theorem Coherent.ask_evaluate {s : FormulaStore} (hs : s.Built) {m : Model} {ev : Evaluator}
    (h : ev.Coherent s m) (id : FormulaId) (world : Text) :
    (ev.ask (evaluate s m id world)).1 = s.valueIn m id world ∧
      (ev.ask (evaluate s m id world)).2.Coherent s m := by
  unfold evaluate FormulaStore.valueIn
  cases m.findWorld? world with
  | some w => exact h.ask_evaluateAt hs id w
  | none => exact ⟨rfl, h⟩

/-- What holds of the values of two formulas at all worlds, and of a failure beside itself, holds of
the answers of coherent evaluators at all numbers and names of worlds. -/
theorem Coherent.answers_of_values {s s' : FormulaStore} (hs : s.Built) (hs' : s'.Built) {m : Model}
    {ev ev' : Evaluator} (hev : ev.Coherent s m) (hev' : ev'.Coherent s' m) {id id' : FormulaId}
    {φ ψ : Formula} (hφ : s.Denotes id φ) (hψ : s'.Denotes id' ψ)
    {P : Except EvalError TwistElement → Except EvalError TwistElement → Prop}
    (herror : ∀ e, P (.error e) (.error e))
    (hvalue : ∀ w < m.worlds.size, P (φ.value m w) (ψ.value m w)) :
    (∀ w, P (ev.ask (evaluateAt s m id w)).1 (ev'.ask (evaluateAt s' m id' w)).1) ∧
      ∀ world, P (ev.ask (evaluate s m id world)).1 (ev'.ask (evaluate s' m id' world)).1 := by
  have hat : ∀ w, P (s.valueAt m id w) (s'.valueAt m id' w) := by
    intro w
    by_cases hw : w < m.worlds.size
    · rw [hφ.valueAt_eq hw, hψ.valueAt_eq hw]
      exact hvalue w hw
    · rw [FormulaStore.valueAt, FormulaStore.valueAt, if_pos (Nat.not_lt.mp hw),
        if_pos (Nat.not_lt.mp hw)]
      exact herror _
  constructor
  · intro w
    rw [(hev.ask_evaluateAt hs id w).1, (hev'.ask_evaluateAt hs' id' w).1]
    exact hat w
  · intro world
    rw [(hev.ask_evaluate hs id world).1, (hev'.ask_evaluate hs' id' world).1,
      FormulaStore.valueIn, FormulaStore.valueIn]
    cases m.findWorld? world with
    | some w => exact hat w
    | none => exact herror _

end Evaluator

end TwistLogic
