import TwistLogic.Model.Evaluator

/-!
# Validity in a model

A formula is valid in a model if it is absolutely true at every world.  The worlds may be shared
out among several threads, each of which has an evaluator of its own; a `Schedule` says which
thread handles which world, and in which order.  `Model.surveyOn` evaluates the formula at every
world by a schedule and puts what comes out, a value or an error, in the place of the world.  If
some worlds fail, the error of the check is that of the first.  `Model.checkValidity` is the check
by one thread.
-/

namespace TwistLogic

/-- A world at which a formula is not absolutely true. -/
structure CounterExample where
  world : Text
  value : TwistElement
  deriving DecidableEq

/-- The values of a formula at all worlds. -/
structure ValidityReport where
  counterExamples : List CounterExample
  /-- One value for every world. -/
  values : List TwistElement
  /-- The greatest lower bound of all values. -/
  aggregate : TwistElement
  stats : EvalStats

/-- Whether there is no counterexample. -/
def ValidityReport.valid (r : ValidityReport) : Bool := r.counterExamples.isEmpty

/-! ### Schedules -/

/-- An order in which threads handle the worlds below `n`, each world once. -/
structure Schedule (threads n : Nat) where
  turns : List (Fin threads × WorldIndex)
  perm : (turns.map Prod.snd).Perm (List.range n)

/-- One thread that handles the worlds in their order. -/
def Schedule.sequential (n : Nat) : Schedule 1 n where
  turns := (List.range n).map fun w => (0, w)
  perm := by simp [Function.comp_def]

/-- The evaluators of all threads, and what has come out so far. -/
structure Survey (threads : Nat) where
  evaluators : Vector Evaluator threads
  /-- One value for every world; absolute truth where none has come out. -/
  values : Array TwistElement
  /-- The error at every world, if there was one. -/
  errors : Array (Option EvalError)

/-- A thread evaluates a formula at a world. -/
def Survey.turn {threads : Nat} (s : FormulaStore) (m : Model) (id : FormulaId)
    (sv : Survey threads) (t : Fin threads × WorldIndex) : Survey threads :=
  let (r, ev) := sv.evaluators[t.1].ask (Evaluator.evaluateAt s m id t.2)
  let evaluators := sv.evaluators.set t.1 ev
  match r with
  | .ok x => { sv with evaluators, values := sv.values.setIfInBounds t.2 x }
  | .error e => { sv with evaluators, errors := sv.errors.setIfInBounds t.2 (some e) }

/-- The sums of two counts. -/
def EvalStats.add (a b : EvalStats) : EvalStats where
  evaluations := a.evaluations + b.evaluations
  cacheHits := a.cacheHits + b.cacheHits
  cacheResets := a.cacheResets + b.cacheResets

/-- What all threads have done together. -/
def Survey.stats {threads : Nat} (sv : Survey threads) : EvalStats :=
  sv.evaluators.foldl (fun stats ev => stats.add ev.stats) ⟨0, 0, 0⟩

namespace Model

/-- The survey before any world has been handled. -/
def blankSurvey (m : Model) (threads : Nat) (memoize : Bool) : Survey threads where
  evaluators := Vector.replicate threads (.start m memoize)
  values := Array.replicate m.worlds.size m.twist.absoluteTrue
  errors := Array.replicate m.worlds.size none

/-- Evaluates a formula at all worlds by a schedule. -/
def surveyOn {threads : Nat} (m : Model) (schedule : Schedule threads m.worlds.size)
    (s : FormulaStore) (id : FormulaId) (memoize : Bool) : Survey threads :=
  schedule.turns.foldl (Survey.turn s m id) (m.blankSurvey threads memoize)

/-- The worlds whose values are not absolute truth. -/
def counterExamples (m : Model) (values : List TwistElement) : List CounterExample :=
  (m.worlds.toList.zip values).filterMap fun (w, x) =>
    if x = m.twist.absoluteTrue then none else some { world := w.id, value := x }

/-- The report on a survey, or the error of the first world that failed. -/
def report {threads : Nat} (m : Model) (sv : Survey threads) : Except EvalError ValidityReport := do
  refuse (sv.errors.toList.findSome? fun e => e)
  let values := sv.values.toList
  return {
    counterExamples := m.counterExamples values
    values
    aggregate := m.twist.meetAll values
    stats := sv.stats }

/-- Checks a formula at all worlds by a schedule. -/
def checkValidityOn {threads : Nat} (m : Model) (schedule : Schedule threads m.worlds.size)
    (s : FormulaStore) (id : FormulaId) (memoize : Bool) : Except EvalError ValidityReport :=
  m.report (m.surveyOn schedule s id memoize)

/-- Checks a formula at all worlds. -/
def checkValidity (m : Model) (s : FormulaStore) (id : FormulaId) (memoize : Bool) :
    Except EvalError ValidityReport :=
  m.checkValidityOn (.sequential m.worlds.size) s id memoize

end Model

end TwistLogic
