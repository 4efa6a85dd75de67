import Mathlib.Data.List.ReduceOption
import TwistLogic.Proofs.Algebra.Guarded
import TwistLogic.Proofs.Model.Schedule
import TwistLogic.Proofs.Model.Session

/-!
# Guarded evaluation

An evaluation reads worlds, transitions, nodes and tables by number.  Here it is run with a guard at
every such step: a number must be that of a world or of a node, a root must have the children that
it needs, and whatever is remembered, combined or returned must be an element of the twist
structure.  A guarded evaluation ends with a `Halt` at the first step that leaves the model, the
store or the algebra; it fails in the ways in which the evaluation itself fails, too, and these are
`Halt.refused`.

A guarded computation `Mirrors` a computation if it has the same outcome and leaves the same
evaluator.  This is shown for every step, and for evaluations by induction on the formula
(`mirrors_valueWithin`): the twist structure is tabulated, a reachable model is well-formed, a
number of a built store stands for a formula, and a coherent evaluator remembers elements only.  So
no step of an evaluation or of a check at any moment of any session leaves what it reads
(`session_needs_no_guards`).
-/

namespace TwistLogic

/-- Why a guarded computation ends without a result. -/
inductive Halt where
  /-- The computation fails without its guards, too. -/
  | refused (e : EvalError)
  /-- An operation of the twist structure leaves the algebra. -/
  | breach (b : Breach)
  /-- A number that is not the number of a world. -/
  | world (w : WorldIndex)
  /-- A root without a child that it needs. -/
  | child
  /-- A number that is not the number of a node. -/
  | node (id : FormulaId)
  /-- A path below a formula that has more nodes than the store. -/
  | depth
  /-- A root whose sign is not known. -/
  | sign (code : Nat)
  /-- A world that has no place in a survey. -/
  | place (w : WorldIndex)
  deriving DecidableEq

namespace Guarded

/-- A computation with guards that an evaluator runs and counts. -/
abbrev Computation := ExceptT Halt (StateM Evaluator)

/-- Runs a computation with guards. -/
def ask {α : Type} (ev : Evaluator) (c : Computation α) : Except Halt α × Evaluator :=
  c.run.run ev

/-! ## Operators with guards -/

section Operators

variable (ts : TwistStructure)

def material (x y : TwistElement) : Except Breach TwistElement := do
  let z ← negation ts x
  join ts z y

def connective : Connective → TwistElement → TwistElement → Except Breach TwistElement
  | .and, x, y => meet ts x y
  | .or, x, y => join ts x y
  | .resImplies, x, y => implication ts x y
  | .implies, x, y => material ts x y
  | .iff, x, y => do
    let there ← material ts x y
    let back ← material ts y x
    meet ts there back

def term : Modality → TwistElement → TwistElement → Except Breach TwistElement
  | .box, weight, x => implication ts weight x
  | .diamond, weight, x => meet ts weight x

def combine : Modality → TwistElement → TwistElement → Except Breach TwistElement
  | .box => meet ts
  | .diamond => join ts

def gather (mod : Modality) : List TwistElement → Except Breach TwistElement
  | [] => element ts (mod.vacuous ts)
  | x :: xs => xs.foldlM (combine ts mod) x

end Operators

/-! ## Evaluation with guards -/

/-- An operation of the twist structure as a step of a computation. -/
def step {α : Type} (x : Except Breach α) : Computation α :=
  match x with
  | .ok a => return a
  | .error b => throw (.breach b)

/-- Asks for a number to be that of a world. -/
def world (m : Model) (w : WorldIndex) : Computation Unit :=
  if w < m.worlds.size then return else throw (.world w)

/-- Asks for the sign of a root to be one of the catalogue. -/
def sign (k : NodeKind) : Computation Unit :=
  if k.code < NodeKind.catalogue.length then return else throw (.sign k.code)

/-- Answers a query from memory, if an element is remembered, or else by a computation. -/
def answer (ts : TwistStructure) (q : Query) (compute : Computation TwistElement) :
    Computation TwistElement := do
  let ev ← get
  if ev.memoize then
    match ev.memo[q]? with
    | some x =>
      modify Evaluator.countHit
      step (element ts x)
    | none =>
      modify Evaluator.countEvaluation
      let x ← compute
      modify (Evaluator.remember · q x)
      return x
  else
    modify Evaluator.countEvaluation
    compute

/-- The value of a node, if its sign is known, at a world, if there is one with the number. -/
def nodeValue (m : Model) (below : Option FormulaId → WorldIndex → Computation TwistElement)
    (n : Node) (w : WorldIndex) : Computation TwistElement := do
  sign n.kind
  world m w
  match n.kind with
  | .top => step (element m.twist m.twist.absoluteTrue)
  | .bot => step (element m.twist m.twist.absoluteFalse)
  | .atom name =>
    match m.value? w name with
    | some x => step (element m.twist x)
    | none => throw (.refused (.undefinedAtom name (m.worldId w)))
  | .neg => do
    let x ← below n.left w
    step (negation m.twist x)
  | .binary c => do
    let x ← below n.left w
    let y ← below n.right w
    step (connective m.twist c x y)
  | .modal mod action => do
    if !m.hasAction action then throw (.refused (.undefinedAction action (m.worldId w)))
    let terms ← (m.successors w action).mapM fun tr => do
      world m tr.target
      let x ← below n.left tr.target
      step (term m.twist mod tr.weight x)
    step (gather m.twist mod terms)

/-- The value of the formula in a slot at a world. -/
def valueWithin (s : FormulaStore) (m : Model) :
    Nat → Option FormulaId → WorldIndex → Computation TwistElement
  | 0, _, _ => throw .depth
  | _, none, _ => throw .child
  | fuel + 1, some id, w =>
    answer m.twist { formula := id, world := w } <|
      match s.node? id with
      | none => throw (.node id)
      | some n => nodeValue m (valueWithin s m fuel) n w

/-- The value of a formula at the world with a number. -/
def evaluateAt (s : FormulaStore) (m : Model) (id : FormulaId) (w : WorldIndex) :
    Computation TwistElement := do
  if m.worlds.size ≤ w then
    throw (.refused (.unknownWorld (ascii "#" ++ Text.decimal w)))
  modify (Evaluator.sync · m.revision)
  valueWithin s m s.size (some id) w

/-! ## Checks with guards -/

/-- A thread evaluates a formula at a world and puts what comes out in its place. -/
def turn {threads : Nat} (s : FormulaStore) (m : Model) (id : FormulaId) (sv : Survey threads)
    (t : Fin threads) (w : WorldIndex) : Except Halt (Survey threads) :=
  let (r, ev) := ask (sv.evaluators.get t) (evaluateAt s m id w)
  let evaluators := sv.evaluators.set t ev t.isLt
  match r with
  | .ok x =>
    if w < sv.values.size then .ok { sv with evaluators, values := sv.values.setIfInBounds w x }
    else .error (.place w)
  | .error (.refused e) =>
    if w < sv.errors.size then
      .ok { sv with evaluators, errors := sv.errors.setIfInBounds w (some e) }
    else .error (.place w)
  | .error h => .error h

def surveyOn {threads : Nat} (m : Model) (schedule : Schedule threads m.worlds.size)
    (s : FormulaStore) (id : FormulaId) (memoize : Bool) : Except Halt (Survey threads) :=
  schedule.turns.foldlM (fun sv t => turn s m id sv t.1 t.2) (m.blankSurvey threads memoize)

/-- The counterexample at a world, if its value is not absolute truth. -/
def counterExample (m : Model) (values : Array TwistElement) (w : WorldIndex) :
    Except Halt (Option CounterExample) :=
  match values[w]?, m.worlds[w]? with
  | none, _ => .error (.place w)
  | some _, none => .error (.world w)
  | some x, some u =>
    .ok (if x = m.twist.absoluteTrue then none else some { world := u.id, value := x })

def report {threads : Nat} (m : Model) (sv : Survey threads) : Except Halt ValidityReport := do
  refuse ((sv.errors.toList.findSome? fun e => e).map .refused)
  let counterExamples ← (List.range sv.values.size).mapM (counterExample m sv.values)
  let aggregate ← (meetAll m.twist sv.values.toList).mapError .breach
  return {
    counterExamples := counterExamples.reduceOption
    values := sv.values.toList
    aggregate
    stats := sv.stats }

/-- Checks a formula at all worlds by a schedule. -/
def checkValidityOn {threads : Nat} (m : Model) (schedule : Schedule threads m.worlds.size)
    (s : FormulaStore) (id : FormulaId) (memoize : Bool) : Except Halt ValidityReport := do
  let sv ← surveyOn m schedule s id memoize
  report m sv

/-! ## Operators need no guards -/

section Operators

variable {ts : TwistStructure} {x y : TwistElement}

lemma material_eq (h : ts.Tabulated) (hx : ts.contains x = true) (hy : ts.contains y = true) :
    material ts x y = .ok (ts.material x y) := by
  rw [material, negation_eq h hx]
  exact join_eq h (h.lawful.contains_negation x) hy

lemma contains_material (h : ts.Tabulated) (x : TwistElement) (hy : ts.contains y = true) :
    ts.contains (ts.material x y) = true :=
  h.lawful.contains_join (h.lawful.contains_negation x) hy

lemma connective_eq (h : ts.Tabulated) (c : Connective) (hx : ts.contains x = true)
    (hy : ts.contains y = true) :
    connective ts c x y = .ok (c.value ts x y) ∧ ts.contains (c.value ts x y) = true := by
  cases c with
  | and => exact ⟨meet_eq h hx hy, h.lawful.contains_meet hx hy⟩
  | or => exact ⟨join_eq h hx hy, h.lawful.contains_join hx hy⟩
  | resImplies => exact ⟨implication_eq h hx hy, h.lawful.contains_implication hx hy⟩
  | implies => exact ⟨material_eq h hx hy, contains_material h x hy⟩
  | iff =>
    have hthere := contains_material h x hy
    have hback := contains_material h y hx
    refine ⟨?_, h.lawful.contains_meet hthere hback⟩
    rw [connective, material_eq h hx hy, material_eq h hy hx]
    exact meet_eq h hthere hback

lemma term_eq (h : ts.Tabulated) (mod : Modality) (hx : ts.contains x = true)
    (hy : ts.contains y = true) :
    term ts mod x y = .ok (mod.term ts x y) ∧ ts.contains (mod.term ts x y) = true := by
  refine ⟨?_, Modality.contains_term h.lawful hx hy⟩
  cases mod with
  | box => exact implication_eq h hx hy
  | diamond => exact meet_eq h hx hy

lemma combine_eq (h : ts.Tabulated) (mod : Modality) (hx : ts.contains x = true)
    (hy : ts.contains y = true) :
    combine ts mod x y = .ok (mod.combine ts x y) ∧ ts.contains (mod.combine ts x y) = true := by
  cases mod with
  | box => exact ⟨meet_eq h hx hy, h.lawful.contains_meet hx hy⟩
  | diamond => exact ⟨join_eq h hx hy, h.lawful.contains_join hx hy⟩

lemma gather_eq (h : ts.Tabulated) (mod : Modality) {xs : List TwistElement}
    (hxs : ∀ y ∈ xs, ts.contains y = true) :
    gather ts mod xs = .ok (mod.gather ts xs) ∧ ts.contains (mod.gather ts xs) = true := by
  cases xs with
  | nil =>
    have hmem : ts.contains (mod.vacuous ts) = true := by
      cases mod with
      | box => exact h.lawful.contains_absoluteTrue
      | diamond => exact h.lawful.contains_absoluteFalse
    exact ⟨element_eq hmem, hmem⟩
  | cons x xs =>
    exact foldlM_eq (fun hx hy => combine_eq h mod hx hy)
      (fun y hy => hxs y (List.mem_cons_of_mem x hy)) (hxs x List.mem_cons_self)

end Operators

/-! ## Computations side by side -/

/-- An evaluator remembers elements only. -/
def Sound (ts : TwistStructure) (ev : Evaluator) : Prop :=
  ∀ (q : Query) (x : TwistElement), ev.memo[q]? = some x → ts.contains x = true

/-- Run by a sound evaluator, a computation with guards has the outcome that the computation has
without them and leaves the same evaluator, which is sound again.  The result has a property. -/
def Mirrors {α : Type} (ts : TwistStructure) (P : α → Prop) (g : Computation α) (c : Evaluation α) :
    Prop :=
  ∀ ev : Evaluator, Sound ts ev →
    ask ev g = ((ev.ask c).1.mapError .refused, (ev.ask c).2) ∧ Sound ts (ev.ask c).2 ∧
      ∀ a, (ev.ask c).1 = .ok a → P a

section Mirrors

variable {α β ι : Type} {ts : TwistStructure} {P : α → Prop} {Q : β → Prop}

lemma ask_bind (ev : Evaluator) (c : Computation α) (f : α → Computation β) :
    ask ev (c >>= f) =
      match ask ev c with
      | (.ok a, ev') => ask ev' (f a)
      | (.error e, ev') => (.error e, ev') := by
  simp only [ask, ExceptT.run_bind, StateT.run_bind]
  rcases StateT.run (ExceptT.run c) ev with ⟨_ | _, _⟩ <;> rfl

lemma mirrors_pure {a : α} (ha : P a) : Mirrors ts P (pure a) (pure a) := by
  refine fun ev hev => ⟨rfl, hev, fun b hb => ?_⟩
  cases hb
  exact ha

lemma mirrors_throw (e : EvalError) : Mirrors ts P (throw (.refused e)) (throw e) :=
  fun _ hev => ⟨rfl, hev, nofun⟩

/-- An operation that needs no guard returns its result. -/
lemma mirrors_step {x : Except Breach α} {a : α} (h : x = .ok a ∧ P a) :
    Mirrors ts P (step x) (pure a) := by
  rw [h.1]
  exact mirrors_pure h.2

lemma Mirrors.bind {g : Computation α} {c : Evaluation α} {g' : α → Computation β}
    {c' : α → Evaluation β} (h : Mirrors ts P g c) (h' : ∀ a, P a → Mirrors ts Q (g' a) (c' a)) :
    Mirrors ts Q (g >>= g') (c >>= c') := by
  intro ev hev
  obtain ⟨hask, hsound, hP⟩ := h ev hev
  rw [ask_bind, hask, Evaluator.ask_bind]
  rcases hc : ev.ask c with ⟨_ | a, ev'⟩
  all_goals rw [hc] at hsound hP
  · exact ⟨rfl, hsound, nofun⟩
  · exact h' a (hP a rfl) ev' hsound

lemma mirrors_mapM {g : ι → Computation α} {c : ι → Evaluation α} {is : List ι}
    (h : ∀ i ∈ is, Mirrors ts P (g i) (c i)) :
    Mirrors ts (fun as => ∀ a ∈ as, P a) (is.mapM g) (is.mapM c) := by
  induction is with
  | nil => exact mirrors_pure (by simp)
  | cons i is ih =>
    rw [List.mapM_cons, List.mapM_cons]
    refine (h i List.mem_cons_self).bind fun a ha => ?_
    refine (ih fun j hj => h j (List.mem_cons_of_mem i hj)).bind fun as has => ?_
    exact mirrors_pure (List.forall_mem_cons.mpr ⟨ha, has⟩)

lemma mirrors_modify {f : Evaluator → Evaluator} (hf : ∀ ev, Sound ts ev → Sound ts (f ev)) :
    Mirrors ts (fun _ => True) (modify f) (modify f) :=
  fun ev hev => ⟨rfl, hf ev hev, fun _ _ => trivial⟩

/-- An element may be remembered. -/
lemma Sound.remember {ev : Evaluator} (h : Sound ts ev) (q : Query) {x : TwistElement}
    (hx : ts.contains x = true) : Sound ts (ev.remember q x) := by
  intro p y hy
  simp only [Evaluator.remember, getElem?_insert_eq_ite] at hy
  split at hy
  · cases hy
    exact hx
  · exact h p y hy

/-- A query is answered alike from memory, and by a computation that is mirrored. -/
lemma mirrors_answer (q : Query) {g : Computation TwistElement} {c : Evaluation TwistElement}
    (h : Mirrors ts (fun x => ts.contains x = true) g c) :
    Mirrors ts (fun x => ts.contains x = true) (answer ts q g) (Evaluator.answer q c) := by
  have hcount : Mirrors ts (fun _ => True) (modify Evaluator.countEvaluation)
      (modify Evaluator.countEvaluation) := mirrors_modify fun _ hev => hev
  have hhit : Mirrors ts (fun _ => True) (modify Evaluator.countHit)
      (modify Evaluator.countHit) := mirrors_modify fun _ hev => hev
  intro ev hev
  have hget : ask ev get = (.ok ev, ev) := rfl
  rw [answer, Evaluator.answer, ask_bind, Evaluator.ask_bind, hget, Evaluator.ask_get]
  by_cases hmemoize : ev.memoize
  · simp only [hmemoize, if_true]
    cases hq : ev.memo[q]? with
    | some x =>
      have hx := hev q x hq
      exact hhit.bind (fun _ _ => mirrors_step ⟨element_eq hx, hx⟩) ev hev
    | none =>
      refine hcount.bind (fun _ _ => h.bind fun x hx => ?_) ev hev
      exact (mirrors_modify fun ev' hev' => hev'.remember q hx).bind fun _ _ => mirrors_pure hx
  · simp only [hmemoize, if_false, Bool.false_eq_true]
    exact hcount.bind (fun _ _ => h) ev hev

end Mirrors

/-! ## Evaluations need no guards -/

section Evaluation

variable {s : FormulaStore} {m : Model} {id : FormulaId} {φ : Formula} {w : WorldIndex}

lemma world_eq (hw : w < m.worlds.size) : world m w = pure () := if_pos hw

/-- Every root has a sign of the catalogue. -/
lemma sign_eq (k : NodeKind) : sign k = pure () := by
  have hlength : NodeKind.catalogue.length = 11 := rfl
  rw [sign, hlength]
  rcases k with _ | _ | _ | _ | (_ | _ | _ | _ | _) | ⟨_ | _, _⟩ <;> rfl

/-- No step of the evaluation of a stored formula leaves what it reads. -/
theorem mirrors_valueWithin (hts : m.twist.Tabulated) (hm : m.WellFormed) (hφ : s.Denotes id φ)
    {fuel : Nat} (hf : φ.height ≤ fuel) (hw : w < m.worlds.size) :
    Mirrors m.twist (fun x => m.twist.contains x = true) (valueWithin s m fuel (some id) w)
      (Evaluator.valueWithin s m fuel (some id) w) := by
  have hlawful := hts.lawful
  induction hφ generalizing fuel w with
  | top hn hk =>
    obtain ⟨k, rfl⟩ := Formula.exists_fuel_eq_succ hf
    refine mirrors_answer _ ?_
    simp only [hn, nodeValue, Evaluator.nodeValue, sign_eq, world_eq hw, pure_bind, hk]
    exact mirrors_step ⟨element_eq hlawful.contains_absoluteTrue, hlawful.contains_absoluteTrue⟩
  | bot hn hk =>
    obtain ⟨k, rfl⟩ := Formula.exists_fuel_eq_succ hf
    refine mirrors_answer _ ?_
    simp only [hn, nodeValue, Evaluator.nodeValue, sign_eq, world_eq hw, pure_bind, hk]
    exact mirrors_step ⟨element_eq hlawful.contains_absoluteFalse, hlawful.contains_absoluteFalse⟩
  | @atom _ _ name hn hk =>
    obtain ⟨k, rfl⟩ := Formula.exists_fuel_eq_succ hf
    refine mirrors_answer _ ?_
    simp only [hn, nodeValue, Evaluator.nodeValue, sign_eq, world_eq hw, pure_bind, hk]
    cases hx : m.value? w name with
    | some x =>
      have hmem := hm.value_mem w name x hx
      exact mirrors_step ⟨element_eq hmem, hmem⟩
    | none => exact mirrors_throw _
  | neg hn hk hl hd ih =>
    obtain ⟨k, rfl⟩ := Formula.exists_fuel_eq_succ hf
    simp only [Formula.height, Nat.add_le_add_iff_right] at hf
    refine mirrors_answer _ ?_
    simp only [hn, nodeValue, Evaluator.nodeValue, sign_eq, world_eq hw, pure_bind, hk, hl]
    exact (ih hf hw).bind fun x hx =>
      mirrors_step ⟨negation_eq hts hx, hlawful.contains_negation x⟩
  | @binary _ _ _ _ c _ _ hn hk hl hr hd hd' ihl ihr =>
    obtain ⟨k, rfl⟩ := Formula.exists_fuel_eq_succ hf
    simp only [Formula.height, Nat.add_le_add_iff_right, Nat.max_le] at hf
    refine mirrors_answer _ ?_
    simp only [hn, nodeValue, Evaluator.nodeValue, sign_eq, world_eq hw, pure_bind, hk, hl, hr]
    exact (ihl hf.1 hw).bind fun x hx => (ihr hf.2 hw).bind fun y hy =>
      mirrors_step (connective_eq hts c hx hy)
  | @modal _ _ _ mod action φ hn hk hl hd ih =>
    obtain ⟨k, rfl⟩ := Formula.exists_fuel_eq_succ hf
    simp only [Formula.height, Nat.add_le_add_iff_right] at hf
    refine mirrors_answer _ ?_
    simp only [hn, nodeValue, Evaluator.nodeValue, sign_eq, world_eq hw, pure_bind, hk, hl]
    by_cases haction : m.hasAction action
    · simp only [haction, Bool.not_true, Bool.false_eq_true, if_false]
      refine (mirrors_mapM fun tr htr => ?_).bind fun terms hterms =>
        mirrors_step (gather_eq hts mod hterms)
      have htarget := hm.target_lt w action tr htr
      rw [world_eq htarget, pure_bind]
      exact (ih hf htarget).bind fun x hx =>
        mirrors_step (term_eq hts mod (hm.weight_mem w action tr htr) hx)
    · simp only [haction, Bool.not_false, if_true]
      exact mirrors_throw _

/-- What a coherent evaluator remembers of the model as it is are elements. -/
lemma sound_of_knows {ev : Evaluator} (hts : m.twist.Lawful) (hm : m.WellFormed)
    (h : ev.Knows s m) : Sound m.twist ev := by
  intro q x hx
  obtain ⟨φ, -, hv⟩ := h q x hx
  exact ((Formula.value_eq_ok_iff hts hm).mp hv).contains hts hm

/-- With guards, a coherent evaluator gives the answer that it gives without them. -/
theorem ask_evaluateAt_eq (hts : m.twist.Tabulated) (hm : m.WellFormed) (hφ : s.Denotes id φ)
    {ev : Evaluator} (hev : ev.Coherent s m) (w : WorldIndex) :
    ask ev (evaluateAt s m id w) = ((ev.ask (Evaluator.evaluateAt s m id w)).1.mapError .refused,
      (ev.ask (Evaluator.evaluateAt s m id w)).2) := by
  unfold evaluateAt Evaluator.evaluateAt
  by_cases hw : m.worlds.size ≤ w
  · simp only [hw, if_true]
    rfl
  · simp only [hw, if_false]
    have hsound := sound_of_knows hts.lawful hm hev.sync.1
    exact (mirrors_valueWithin hts hm hφ hφ.height_le_size (Nat.not_le.mp hw) _ hsound).1

end Evaluation

/-! ## Checks need no guards -/

section Check

variable {threads : Nat} {s : FormulaStore} {m : Model} {id : FormulaId} {φ : Formula}
  {sv : Survey threads} {done : List WorldIndex}

/-- A turn at a world is the same with guards. -/
lemma turn_eq (hts : m.twist.Tabulated) (hm : m.WellFormed) (hφ : s.Denotes id φ)
    (hsv : sv.Coherent s m id done) {t : Fin threads × WorldIndex} (hw : t.2 < m.worlds.size) :
    turn s m id sv t.1 t.2 = .ok (sv.turn s m id t) := by
  have hask : ask (sv.evaluators.get t.1) (evaluateAt s m id t.2) =
      ((sv.evaluators[t.1].ask (Evaluator.evaluateAt s m id t.2)).1.mapError .refused,
        (sv.evaluators[t.1].ask (Evaluator.evaluateAt s m id t.2)).2) :=
    ask_evaluateAt_eq hts hm hφ (hsv.evaluators t.1) t.2
  have hvalue : t.2 < sv.values.size := hsv.size_values ▸ hw
  have herror : t.2 < sv.errors.size := hsv.size_errors ▸ hw
  unfold turn Survey.turn
  rw [hask]
  rcases sv.evaluators[t.1].ask (Evaluator.evaluateAt s m id t.2) with ⟨e | x, ev⟩
  · exact if_pos herror
  · exact if_pos hvalue

/-- Turns at worlds are the same with guards. -/
lemma foldlM_turn_eq (hts : m.twist.Tabulated) (hm : m.WellFormed) (hs : s.Built)
    (hφ : s.Denotes id φ) (hsv : sv.Coherent s m id done)
    {turns : List (Fin threads × WorldIndex)} (hturns : ∀ t ∈ turns, t.2 < m.worlds.size) :
    turns.foldlM (fun sv t => turn s m id sv t.1 t.2) sv =
      .ok (turns.foldl (Survey.turn s m id) sv) := by
  induction turns generalizing sv done with
  | nil => rfl
  | cons t turns ih =>
    rw [List.foldlM_cons, turn_eq hts hm hφ hsv (hturns t List.mem_cons_self)]
    exact ih (hsv.turn hs t) fun u hu => hturns u (List.mem_cons_of_mem t hu)

lemma surveyOn_eq (hts : m.twist.Tabulated) (hm : m.WellFormed) (hs : s.Built)
    (hφ : s.Denotes id φ) (schedule : Schedule threads m.worlds.size) (memoize : Bool) :
    surveyOn m schedule s id memoize = .ok (m.surveyOn schedule s id memoize) := by
  refine foldlM_turn_eq hts hm hs hφ (Survey.coherent_blankSurvey memoize) fun t ht => ?_
  exact List.mem_range.mp (schedule.perm.mem_iff.mp (List.mem_map_of_mem ht))

/-- With one value for every world, the counterexamples are found in their places. -/
lemma exists_mapM_counterExample {values : Array TwistElement}
    (hsize : values.size = m.worlds.size) :
    ∃ found, (List.range values.size).mapM (counterExample m values) = .ok found ∧
      found.reduceOption = m.counterExamples values.toList := by
  let v (w : WorldIndex) : TwistElement := (values[w]?).getD m.twist.absoluteTrue
  have hvalues : values.toList = (List.range m.worlds.size).map v := by
    refine List.ext_getElem (by simp [hsize]) fun w hw _ => ?_
    have hlt : w < values.size := by simpa using hw
    simp [v, hlt]
  refine ⟨_, mapM_eq_ok_of_forall (g := fun w =>
    if v w = m.twist.absoluteTrue then none else some { world := m.worldId w, value := v w })
    fun w hw => ?_, ?_⟩
  · have hlt : w < values.size := List.mem_range.mp hw
    simp only [counterExample, Model.worldId, v, Array.getElem?_eq_getElem hlt,
      Array.getElem?_eq_getElem (hsize ▸ hlt), Option.getD_some, Option.elim_some]
  · rw [hvalues, Model.counterExamples_map_range, List.reduceOption, List.filterMap_map, hsize]
    rfl

/-- If no world of a survey fails, all its values are elements. -/
lemma contains_values (hts : m.twist.Lawful) (hm : m.WellFormed) (hsv : sv.Coherent s m id done)
    (hdone : ∀ w < m.worlds.size, w ∈ done)
    (hfault : (sv.errors.toList.findSome? fun e => e) = none) :
    ∀ x ∈ sv.values.toList, m.twist.contains x = true := by
  rw [hsv.errors_toList hdone, List.findSome?_map, List.findSome?_eq_none_iff] at hfault
  intro x hx
  obtain ⟨w, hw, rfl⟩ := Array.mem_iff_getElem.mp (Array.mem_toList_iff.mp hx)
  have hlt : w < m.worlds.size := hsv.size_values ▸ hw
  obtain ⟨y, hy⟩ := error?_eq_none_iff.mp (hfault w (List.mem_range.mpr hlt))
  have hplace := hsv.values w (hdone w hlt) hlt y hy
  obtain rfl : sv.values[w] = y := by
    rwa [Array.getElem?_eq_getElem hw, Option.some.injEq] at hplace
  exact FormulaStore.contains_of_valueAt_eq_ok hts hm hy

/-- The report on a survey of all worlds is the same with guards, and it holds elements only. -/
lemma report_eq (hts : m.twist.Tabulated) (hm : m.WellFormed) (hsv : sv.Coherent s m id done)
    (hdone : ∀ w < m.worlds.size, w ∈ done) :
    report m sv = (m.report sv).mapError .refused ∧
      ∀ r, m.report sv = .ok r →
        m.twist.contains r.aggregate = true ∧ ∀ x ∈ r.values, m.twist.contains x = true := by
  unfold report Model.report
  cases hfault : sv.errors.toList.findSome? fun e => e with
  | some e => exact ⟨rfl, nofun⟩
  | none =>
    have hmem := contains_values hts.lawful hm hsv hdone hfault
    obtain ⟨hmeet, haggregate⟩ := meetAll_eq hts hmem
    obtain ⟨found, hfound, hreduce⟩ := exists_mapM_counterExample hsv.size_values
    refine ⟨?_, fun r hr => ?_⟩
    · simp only [hfound, hmeet, ← hreduce]
      rfl
    · cases hr
      exact ⟨haggregate, hmem⟩

end Check

/-- At every moment of every session over a generated structure, guards are never needed: an
evaluation by any of the evaluators, and a check by any schedule, is the same with and without them,
and all values that are returned are elements.  So are comparisons of elements. -/
theorem session_needs_no_guards {ts : TwistStructure} (hts : ts.Generated)
    {rs : List Request} (hrs : (Session.start ts).Admits rs) :
    let st := rs.foldl Session.after (.start ts)
    (∀ id < st.store.size,
      (∀ ev ∈ st.evaluators, ∀ w,
        let answer := ev.ask (Evaluator.evaluateAt st.store st.model id w)
        ask ev (evaluateAt st.store st.model id w) = (answer.1.mapError .refused, answer.2) ∧
          ∀ x, answer.1 = .ok x → ts.contains x = true) ∧
      ∀ (threads : Nat) (schedule : Schedule threads st.model.worlds.size) (memoize : Bool),
        let found := st.model.checkValidityOn schedule st.store id memoize
        checkValidityOn st.model schedule st.store id memoize = found.mapError .refused ∧
          ∀ r, found = .ok r →
            ts.contains r.aggregate = true ∧ ∀ x ∈ r.values, ts.contains x = true) ∧
    ∀ x y, ts.contains x = true → ts.contains y = true → leq ts x y = .ok (ts.leq x y) := by
  intro st
  obtain ⟨hcoherent, hreachable⟩ : st.Coherent ∧ Model.Reachable ts st.model :=
    (Session.coherent_start ts).foldl_after .empty hrs
  obtain ⟨htwist, hm⟩ := hreachable.wellFormed
  have htabulated := hts.tabulated
  have hmodel : st.model.twist.Tabulated := htwist ▸ htabulated
  refine ⟨fun id hid => ?_, fun x y hx hy => leq_eq htabulated hx hy⟩
  obtain ⟨φ, hφ⟩ := hcoherent.built.exists_denotes id hid
  constructor
  · intro ev hev w answer
    have hev := hcoherent.evaluators ev hev
    refine ⟨ask_evaluateAt_eq hmodel hm hφ hev w, fun x hx => ?_⟩
    rw [← htwist]
    exact FormulaStore.contains_of_valueAt_eq_ok hmodel.lawful hm
      ((hev.ask_evaluateAt hcoherent.built id w).1.symm.trans hx)
  · intro threads schedule memoize found
    obtain ⟨done, hsv, hdone⟩ := Survey.coherent_surveyOn hcoherent.built id schedule memoize
    obtain ⟨hreport, hmem⟩ := report_eq hmodel hm hsv hdone
    refine ⟨?_, htwist ▸ hmem⟩
    rw [checkValidityOn, surveyOn_eq hmodel hm hcoherent.built hφ]
    exact hreport

/-- A node over a number that names nothing is never made in a session.  With guards, it is noticed
there. -/
example : (ask (.start .seesaw true)
    (evaluateAt (FormulaStore.initial.intern (.unary .neg 7)).2 .seesaw 2 0)).1 =
      .error (.node 7) := by
  decide +kernel

/-- A diamond is asked for along a circle, before and after its atom has a value everywhere. -/
def circling : List Request :=
  [.edit (.addWorld (ascii "u") ∅), .edit (.addWorld (ascii "v") ∅),
    .edit (.assign (ascii "v") (ascii "p") ⟨1, 1⟩),
    .edit (.addRelation (ascii "u") (ascii "v") (ascii "a") ⟨1, 0⟩),
    .edit (.addRelation (ascii "v") (ascii "u") (ascii "a") ⟨1, 1⟩),
    .intern (.leaf (.atom (ascii "p"))), .intern (.unary (.modal .diamond (ascii "a")) 2),
    .newEvaluator true, .evaluateAt 0 3 0, .evaluateAt 0 3 1,
    .edit (.assign (ascii "u") (ascii "p") ⟨1, 0⟩), .evaluateAt 0 3 0]

/-- The evaluator remembers the value at `u` and finds the one at `v` with guards as without them,
and so do new evaluators that check all worlds. -/
theorem circling_needs_no_guards :
    let st := circling.foldl Session.after (.start .fourValued)
    (Session.start .fourValued).Admits circling ∧
    (∀ ev ∈ st.evaluators, ∀ w,
      ask ev (evaluateAt st.store st.model 3 w) =
        ((ev.ask (Evaluator.evaluateAt st.store st.model 3 w)).1.mapError .refused,
          (ev.ask (Evaluator.evaluateAt st.store st.model 3 w)).2)) ∧
    (st.evaluators.toList.map fun ev =>
        [0, 1, 2].map fun w => (ask ev (evaluateAt st.store st.model 3 w)).1) =
      [[.ok ⟨1, 1⟩, .ok ⟨1, 1⟩, .error (.refused (.unknownWorld (ascii "#2")))]] ∧
    ((checkValidityOn st.model (.sequential _) st.store 3 true).toOption.map fun r =>
        (r.values, r.aggregate)) = some ([⟨1, 1⟩, ⟨1, 1⟩], ⟨1, 1⟩) := by
  intro st
  have hadmits : (Session.start .fourValued).Admits circling := by
    refine ⟨nofun, nofun, nofun, nofun, nofun, ?_, ?_, nofun, nofun, nofun, nofun, nofun, trivial⟩
    · rintro n ⟨⟩
      unfold Node.Over
      decide
    · rintro n ⟨⟩
      unfold Node.Over
      decide +kernel
  have hid : 3 < st.store.size := by decide +kernel
  obtain ⟨heval, -⟩ :=
    (session_needs_no_guards TwistStructure.generated_fourValued hadmits).1 3 hid
  exact ⟨hadmits, fun ev hev w => (heval ev hev w).1, by decide +kernel, by decide +kernel⟩

end Guarded

end TwistLogic
