import TwistLogic.Algebra.Twist
import TwistLogic.Text.Layout

/-!
# Weighted models

A model is a transition system over a twist structure.  Every world gives some propositions a
value, and every transition carries an action label and a weight.  Worlds are numbered in the
order in which they were added, transitions keep the order in which they were added, and an action
is known once it was declared or has a transition.

Each operation either refuses its arguments or returns the changed model.  `Model.revision` counts
the changes, so a reader that remembers it can tell whether the model is still the same.
-/

namespace TwistLogic

/-- The number of a world in a model.  It has 32 bits if there are at most 2^32 worlds. -/
abbrev WorldIndex := Nat

/-- The values of propositions. -/
abbrev Valuation := Std.TreeMap Text TwistElement

/-- Values given by the names of their two components. -/
abbrev NamedValuation := Std.TreeMap Text (Text × Text)

/-- Why an operation on a model was refused. -/
inductive ModelError where
  | noTwist
  | duplicateWorld (id : Text)
  | unknownWorld (id : Text)
  | mismatch (m : Mismatch)
  deriving DecidableEq

/-- The wording of an unknown world. -/
def unknownWorldText (id : Text) : Text := ascii "unknown world " ++ id.quoted

/-- The wording of a refusal. -/
def ModelError.text : ModelError → Text
  | noTwist => ascii "a model requires a twist structure"
  | duplicateWorld id => ascii "duplicate world " ++ id.quoted
  | unknownWorld id => unknownWorldText id
  | mismatch m => m.text

/-- A weighted step to a world. -/
structure Transition where
  target : WorldIndex
  weight : TwistElement
  deriving DecidableEq

/-- A world with its values and, for every action, its transitions. -/
structure World where
  id : Text
  valuation : Valuation
  edges : Std.TreeMap Text (List Transition)

/-- A world with one more transition. -/
def World.addEdge (u : World) (action : Text) (tr : Transition) : World :=
  { u with edges := u.edges.insert action ((u.edges[action]?).getD [] ++ [tr]) }

/-- A world that is to be added, with the values of its propositions. -/
structure WorldSpec where
  id : Text
  valuation : Valuation

/-- A weighted transition system. -/
structure Model where
  twist : TwistStructure
  worlds : Array World
  actions : Std.TreeSet Text
  revision : Nat

namespace Model

/-- The model without worlds over a twist structure. -/
def empty (twist : TwistStructure) : Model :=
  { twist, worlds := #[], actions := ∅, revision := 0 }

/-- The model without worlds over a twist structure that may be missing. -/
def empty? : Option TwistStructure → Except ModelError Model
  | none => .error .noTwist
  | some twist => .ok (empty twist)

/-! ### Looking things up -/

/-- The number of the world with a name. -/
def findWorld? (m : Model) (id : Text) : Option WorldIndex := m.worlds.findIdx? (·.id == id)

/-- The number of the world with a name, or why there is none. -/
def worldIndex (m : Model) (id : Text) : Except ModelError WorldIndex :=
  match m.findWorld? id with
  | some w => .ok w
  | none => .error (.unknownWorld id)

/-- The name of a world. -/
def worldId (m : Model) (w : WorldIndex) : Text := (m.worlds[w]?).elim [] (·.id)

/-- The value of a proposition at a world, if it has one. -/
def value? (m : Model) (w : WorldIndex) (prop : Text) : Option TwistElement :=
  (m.worlds[w]?).bind (·.valuation[prop]?)

/-- Whether an action is known. -/
def hasAction (m : Model) (action : Text) : Bool := m.actions.contains action

/-- The transitions from a world under an action, in the order in which they were added. -/
def successors (m : Model) (w : WorldIndex) (action : Text) : List Transition :=
  ((m.worlds[w]?).bind (·.edges[action]?)).getD []

/-- All propositions with a value at some world, as a sorted set. -/
def propositions (m : Model) : List Text :=
  Text.sortedSet (m.worlds.toList.flatMap (·.valuation.keys))

/-- The number of transitions. -/
def relationCount (m : Model) : Nat :=
  (m.worlds.toList.flatMap fun w => w.edges.values.flatten).length

/-! ### Worlds -/

/-- The values that names stand for. -/
def resolve (ts : TwistStructure) (v : NamedValuation) : Except Mismatch Valuation := do
  let entries ← v.toList.mapM fun (prop, t, f) => return (prop, ← ts.element? t f)
  return .ofList entries

/-- Where the value of a proposition stands, for messages. -/
def valuePlace (world prop : Text) : Text :=
  ascii "value of " ++ prop.quoted ++ ascii " in world " ++ world.quoted

/-- Refuses a valuation with a value that is no element. -/
def checkValuation (ts : TwistStructure) (world : Text) (v : Valuation) : Except Mismatch Unit :=
  v.toList.forM fun (prop, x) => ts.require x (valuePlace world prop)

/-- Places a world behind the others and leaves the revision as it is. -/
def place (m : Model) (spec : WorldSpec) : Except ModelError Model := do
  if (m.findWorld? spec.id).isSome then throw (.duplicateWorld spec.id)
  (checkValuation m.twist spec.id spec.valuation).mapError .mismatch
  let world : World := { id := spec.id, valuation := spec.valuation, edges := ∅ }
  return { m with worlds := m.worlds.push world }

/-- Adds a world and returns its number. -/
def addWorld (m : Model) (id : Text) (v : Valuation) : Except ModelError (WorldIndex × Model) := do
  let m' ← m.place { id, valuation := v }
  return (m.worlds.size, { m' with revision := m.revision + 1 })

/-- Adds a world whose values are given by names. -/
def addWorldNamed (m : Model) (id : Text) (v : NamedValuation) :
    Except ModelError (WorldIndex × Model) := do
  if (m.findWorld? id).isSome then throw (.duplicateWorld id)
  m.addWorld id (← (resolve m.twist v).mapError .mismatch)

/-- Adds several worlds as one change, or none of them. -/
def addWorlds (m : Model) (specs : List WorldSpec) : Except ModelError Model := do
  let m' ← specs.foldlM place m
  return { m' with revision := if specs.isEmpty then m.revision else m.revision + 1 }

/-! ### Values and transitions -/

/-- Gives a proposition a value at a world. -/
def assign (m : Model) (world prop : Text) (x : TwistElement) : Except ModelError Model := do
  let w ← m.worldIndex world
  (m.twist.require x (valuePlace world prop)).mapError .mismatch
  return { m with
    worlds := m.worlds.modify w fun u => { u with valuation := u.valuation.insert prop x }
    revision := m.revision + 1 }

/-- Adds a transition; its action becomes known. -/
def addRelation (m : Model) (source target action : Text) (weight : TwistElement) :
    Except ModelError Model := do
  let src ← m.worldIndex source
  let dst ← m.worldIndex target
  let what := ascii "weight of " ++ source ++ ascii " -" ++ action ++ ascii "-> " ++ target
  (m.twist.require weight what).mapError .mismatch
  return { m with
    worlds := m.worlds.modify src (World.addEdge · action { target := dst, weight })
    actions := m.actions.insert action
    revision := m.revision + 1 }

/-- Adds a transition whose weight is given by names. -/
def addRelationNamed (m : Model) (source target action : Text) (t f : Text) :
    Except ModelError Model := do
  let _ ← m.worldIndex source
  let _ ← m.worldIndex target
  m.addRelation source target action (← (m.twist.element? t f).mapError .mismatch)

/-- Makes an action known. -/
def declareAction (m : Model) (action : Text) : Model :=
  if m.hasAction action then m
  else { m with actions := m.actions.insert action, revision := m.revision + 1 }

end Model

end TwistLogic
