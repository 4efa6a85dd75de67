import TwistLogic.Model.Basic

/-!
# Describing a model by names

A `ModelDescription` lists worlds, relations and actions by name.  `ModelDescription.build` resolves
the values of all worlds before it adds any of them, then adds the relations and the actions in the
order in which they are listed.
-/

namespace TwistLogic

/-- A world of a description. -/
structure WorldDescription where
  id : Text
  valuation : NamedValuation

/-- A weighted transition of a description. -/
structure RelationDescription where
  source : Text
  target : Text
  action : Text
  t : Text
  f : Text
  deriving DecidableEq

/-- A model given by names. -/
structure ModelDescription where
  /-- The name of the twist structure. -/
  twist : Text
  worlds : List WorldDescription
  relations : List RelationDescription
  actions : List Text

namespace ModelDescription

/-- A world with its values resolved. -/
def resolveWorld (ts : TwistStructure) (d : WorldDescription) : Except ModelError WorldSpec := do
  return { id := d.id, valuation := ← (Model.resolve ts d.valuation).mapError .mismatch }

/-- Adds a described relation. -/
def addRelation (m : Model) (r : RelationDescription) : Except ModelError Model :=
  m.addRelationNamed r.source r.target r.action r.t r.f

/-- The model that a description describes over a twist structure. -/
def build (d : ModelDescription) (ts : Option TwistStructure) : Except ModelError Model := do
  let m ← Model.empty? ts
  let specs ← d.worlds.mapM (resolveWorld m.twist)
  let m ← m.addWorlds specs
  let m ← d.relations.foldlM addRelation m
  return d.actions.foldl Model.declareAction m

end ModelDescription

end TwistLogic
