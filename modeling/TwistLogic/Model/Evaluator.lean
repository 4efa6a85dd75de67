import TwistLogic.Formula.Reach
import TwistLogic.Model.Basic

/-!
# Evaluating formulas

The value of a formula at a world of a model.  An atom has the value that the world gives it, a
connective combines the values of its operands, and a modality gathers one term for every
transition under its action: a box the implications from the weights, a diamond the meets with
them.

An `Evaluator` remembers the values that it has computed, until the model's revision changes, and
counts what it does.  `Evaluator.evaluateAt` returns the value, or why there is none; the
evaluator counts what a failed evaluation did too, but remembers no value for it.
-/

namespace TwistLogic

/-- Why a formula has no value at a world. -/
inductive EvalError where
  | unknownWorld (id : Text)
  /-- The world gives an atom no value. -/
  | undefinedAtom (atom world : Text)
  /-- The model does not know an action. -/
  | undefinedAction (action world : Text)
  /-- A number that stands for no formula. -/
  | danglingFormula
  deriving DecidableEq

/-- The wording of an evaluation error. -/
def EvalError.text : EvalError → Text
  | unknownWorld id => unknownWorldText id
  | undefinedAtom atom world =>
    ascii "undefined atom " ++ atom.quoted ++ ascii " is not assigned in world " ++ world.quoted
  | undefinedAction action world =>
    ascii "action " ++ action.quoted ++ ascii " is not defined in the model (at world " ++
      world.quoted ++ ascii ")"
  | danglingFormula => ascii "no formula has this number"

/-! ### Values of operators -/

/-- The material implication: the negation of the first operand or the second. -/
def TwistStructure.material (ts : TwistStructure) (x y : TwistElement) : TwistElement :=
  ts.join (ts.negation x) y

/-- The value of a connective. -/
def Connective.value (ts : TwistStructure) : Connective → TwistElement → TwistElement → TwistElement
  | .and, x, y => ts.meet x y
  | .or, x, y => ts.join x y
  | .resImplies, x, y => ts.implication x y
  | .implies, x, y => ts.material x y
  | .iff, x, y => ts.meet (ts.material x y) (ts.material y x)

namespace Modality

/-- What a transition with a weight contributes when the value at its target is `x`. -/
def term (ts : TwistStructure) : Modality → TwistElement → TwistElement → TwistElement
  | .box, weight, x => ts.implication weight x
  | .diamond, weight, x => ts.meet weight x

/-- How two contributions combine. -/
def combine (ts : TwistStructure) : Modality → TwistElement → TwistElement → TwistElement
  | .box => ts.meet
  | .diamond => ts.join

/-- The value without any transition. -/
def vacuous (ts : TwistStructure) : Modality → TwistElement
  | .box => ts.absoluteTrue
  | .diamond => ts.absoluteFalse

/-- The value of a modality whose transitions contribute the given terms. -/
def gather (ts : TwistStructure) (m : Modality) : List TwistElement → TwistElement
  | [] => m.vacuous ts
  | x :: xs => xs.foldl (m.combine ts) x

end Modality

/-! ### The evaluator -/

/-- A formula at a world. -/
structure Query where
  formula : FormulaId
  world : WorldIndex
  deriving DecidableEq

namespace Query

/-- The two numbers of a query in one list. -/
def key (q : Query) : List Nat := [q.formula, q.world]

/-- Queries with the same numbers are the same. -/
theorem key_injective {p q : Query} (h : p.key = q.key) : p = q := by
  obtain ⟨a, b⟩ := p
  obtain ⟨c, d⟩ := q
  simp_all [key]

instance : Ord Query := ⟨compareOn key⟩

instance : Std.TransOrd Query := inferInstanceAs (Std.TransCmp (compareOn key))

instance : Std.LawfulEqOrd Query where
  eq_of_compare h := key_injective (Std.LawfulEqOrd.eq_of_compare h)
  compare_self {a} := Std.ReflOrd.compare_self (a := a.key)

end Query

/-- What an evaluator has done. -/
structure EvalStats where
  /-- Queries that were computed. -/
  evaluations : Nat
  /-- Queries that were remembered. -/
  cacheHits : Nat
  /-- How often a change of the model made it forget values. -/
  cacheResets : Nat
  deriving DecidableEq

/-- A reader of a model that may remember values. -/
structure Evaluator where
  memoize : Bool
  stats : EvalStats
  memo : Std.TreeMap Query TwistElement
  /-- The revision of the model that the remembered values belong to. -/
  revision : Nat

/-- A computation that an evaluator runs and counts. -/
abbrev Evaluation := ExceptT EvalError (StateM Evaluator)

namespace Evaluator

/-- An evaluator that has done nothing yet. -/
def start (m : Model) (memoize : Bool) : Evaluator :=
  { memoize, stats := ⟨0, 0, 0⟩, memo := ∅, revision := m.revision }

/-- Forgets all values. -/
def clearCache (ev : Evaluator) : Evaluator := { ev with memo := ∅ }

/-- Forgets all values if they belong to another revision. -/
def sync (ev : Evaluator) (revision : Nat) : Evaluator :=
  if revision = ev.revision then ev
  else if ev.memo.isEmpty then { ev with revision }
  else
    { ev with
      revision, memo := ∅, stats := { ev.stats with cacheResets := ev.stats.cacheResets + 1 } }

/-- Counts a computed query. -/
def countEvaluation (ev : Evaluator) : Evaluator :=
  { ev with stats := { ev.stats with evaluations := ev.stats.evaluations + 1 } }

/-- Counts a remembered query. -/
def countHit (ev : Evaluator) : Evaluator :=
  { ev with stats := { ev.stats with cacheHits := ev.stats.cacheHits + 1 } }

/-- Remembers the value of a query. -/
def remember (ev : Evaluator) (q : Query) (x : TwistElement) : Evaluator :=
  { ev with memo := ev.memo.insert q x }

/-- Answers a query from memory, or else by a computation. -/
def answer (q : Query) (compute : Evaluation TwistElement) : Evaluation TwistElement := do
  let ev ← get
  if ev.memoize then
    match ev.memo[q]? with
    | some x =>
      modify countHit
      return x
    | none =>
      modify countEvaluation
      let x ← compute
      modify (remember · q x)
      return x
  else
    modify countEvaluation
    compute

/-- The value of a node at a world, given how to find the values below it. -/
def nodeValue {μ : Type → Type} [Monad μ] [MonadExcept EvalError μ] (m : Model)
    (below : Option FormulaId → WorldIndex → μ TwistElement) (n : Node) (w : WorldIndex) :
    μ TwistElement :=
  match n.kind with
  | .top => return m.twist.absoluteTrue
  | .bot => return m.twist.absoluteFalse
  | .atom name =>
    match m.value? w name with
    | some x => return x
    | none => throw (.undefinedAtom name (m.worldId w))
  | .neg => do
    let x ← below n.left w
    return m.twist.negation x
  | .binary c => do
    let x ← below n.left w
    let y ← below n.right w
    return c.value m.twist x y
  | .modal mod action => do
    if !m.hasAction action then throw (.undefinedAction action (m.worldId w))
    let terms ← (m.successors w action).mapM fun tr => do
      let x ← below n.left tr.target
      return mod.term m.twist tr.weight x
    return mod.gather m.twist terms

/-- The value of the formula in a slot at a world, if no path below it has more than `fuel`
nodes. -/
def valueWithin (s : FormulaStore) (m : Model) :
    Nat → Option FormulaId → WorldIndex → Evaluation TwistElement
  | 0, _, _ => throw .danglingFormula
  | _, none, _ => throw .danglingFormula
  | fuel + 1, some id, w =>
    answer { formula := id, world := w } <|
      match s.node? id with
      | none => throw .danglingFormula
      | some n => nodeValue m (valueWithin s m fuel) n w

/-- The value of a formula at the world with a number. -/
def evaluateAt (s : FormulaStore) (m : Model) (id : FormulaId) (w : WorldIndex) :
    Evaluation TwistElement := do
  if m.worlds.size ≤ w then throw (.unknownWorld (ascii "#" ++ Text.decimal w))
  modify (sync · m.revision)
  valueWithin s m s.size (some id) w

/-- Runs a computation and returns its outcome with the evaluator that it leaves. -/
def ask {α : Type} (ev : Evaluator) (c : Evaluation α) : Except EvalError α × Evaluator :=
  c.run.run ev

/-- The value of a formula at the world with a name. -/
def evaluate (s : FormulaStore) (m : Model) (id : FormulaId) (world : Text) :
    Evaluation TwistElement :=
  match m.findWorld? world with
  | none => throw (.unknownWorld world)
  | some w => evaluateAt s m id w

end Evaluator

/-- Every world with every atom of a formula that it gives no value, the worlds in their order and
the atoms in theirs. -/
def Model.unvalued? (m : Model) (s : FormulaStore) (id : FormulaId) :
    Option (List (Text × Text)) :=
  (s.atoms? id).map fun atoms =>
    m.worlds.toList.flatMap fun w =>
      (atoms.filter fun a => !w.valuation.contains a).map fun a => (w.id, a)

end TwistLogic
