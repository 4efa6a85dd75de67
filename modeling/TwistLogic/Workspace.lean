import TwistLogic.Error
import TwistLogic.Formula.Parser
import TwistLogic.Model.Description
import TwistLogic.Model.Validity

/-!
# Workspaces

A workspace keeps twist structures and models under names, and one formula store for all of them.
A model holds on to the twist structure that it was built over, so giving that name to another
structure changes no model.
-/

namespace TwistLogic

/-- Named twist structures, named models and their formulas. -/
structure Workspace where
  twists : Std.TreeMap Text TwistStructure
  models : Std.TreeMap Text Model
  store : FormulaStore

/-- A counterexample with its value by names. -/
structure NamedCounterExample where
  world : Text
  t : Text
  f : Text
  deriving DecidableEq

/-- The answer to the question whether a formula is valid in a model. -/
structure EvaluationResponse where
  valid : Bool
  counterExamples : List NamedCounterExample
  deriving DecidableEq

namespace Workspace

/-- The workspace without structures and models. -/
def empty : Workspace := { twists := ∅, models := ∅, store := .initial }

/-! ### Twist structures -/

/-- Gives a twist structure a name. -/
def addTwist (ws : Workspace) (name : Text) : Option TwistStructure → Except Error Workspace
  | none => .error (.nullTwist name)
  | some ts => .ok { ws with twists := ws.twists.insert name ts }

/-- Builds the twist structure over a presented algebra and gives it a name. -/
def defineTwist (ws : Workspace) (name : Text) (p : Presentation) :
    Except Error (TwistStructure × Workspace) := do
  let base ← p.build.mapError .algebra
  let ts ← (TwistStructure.generate (some base)).mapError .algebra
  return (ts, ← ws.addTwist name (some ts))

/-- The twist structure with a name. -/
def twist (ws : Workspace) (name : Text) : Except Error TwistStructure :=
  match ws.twists[name]? with
  | some ts => .ok ts
  | none => .error (.unknownTwist name)

/-! ### Models -/

/-- Gives a model a name. -/
def putModel (ws : Workspace) (name : Text) (m : Model) : Workspace :=
  { ws with models := ws.models.insert name m }

/-- Builds a described model over the twist structure that the description names, and gives it a
name. -/
def defineModel (ws : Workspace) (name : Text) (d : ModelDescription) :
    Except Error (Model × Workspace) := do
  let ts ← ws.twist d.twist
  let m ← (d.build (some ts)).mapError .model
  return (m, ws.putModel name m)

/-- The model with a name. -/
def model (ws : Workspace) (name : Text) : Except Error Model :=
  match ws.models[name]? with
  | some m => .ok m
  | none => .error (.unknownModel name)

/-! ### Questions -/

/-- A counterexample of a model with its value by names. -/
def nameCounterExample (ts : TwistStructure) (c : CounterExample) :
    Except Mismatch NamedCounterExample := do
  let (t, f) ← ts.names? c.value
  return { world := c.world, t, f }

/-- Whether a stored formula is valid in a model, checked by a schedule. -/
def respondOn {threads : Nat} (m : Model) (schedule : Schedule threads m.worlds.size)
    (s : FormulaStore) (id : FormulaId) (memoize : Bool) : Except Error EvaluationResponse := do
  let report ← (m.checkValidityOn schedule s id memoize).mapError .evaluation
  let named ← (report.counterExamples.mapM (nameCounterExample m.twist)).mapError .mismatch
  return { valid := report.valid, counterExamples := named }

/-- Whether the formula of a source is valid in a named model, checked by the schedule for as many
worlds.  The formulas that were read stay in the workspace, whatever the answer is. -/
def evaluateOn {threads : Nat} (schedules : (n : Nat) → Schedule threads n) (ws : Workspace)
    (source name : Text) (memoize : Bool) : Except Error EvaluationResponse × Workspace :=
  match ws.model name with
  | .error e => (.error e, ws)
  | .ok m =>
    match ws.store.parse source 1 with
    | (.error e, s) => (.error (.parse e), { ws with store := s })
    | (.ok id, s) =>
      (respondOn m (schedules m.worlds.size) s id memoize, { ws with store := s })

/-- Whether the formula of a source is valid in a named model, checked by one thread. -/
def evaluate (ws : Workspace) (source name : Text) (memoize : Bool) :
    Except Error EvaluationResponse × Workspace :=
  ws.evaluateOn Schedule.sequential source name memoize

end Workspace

end TwistLogic
