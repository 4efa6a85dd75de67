import TwistLogic.Algebra.Residuated

/-!
# Presentations by names

A residuated lattice can be presented by names alone: its elements, pairs that generate its order,
and triples `(a, b, c)` that say `a * b = c`.  A product that is given for one order of its factors
holds for the other order too.  `Presentation.build` refuses triples that contradict each other and
products that no triple gives.
-/

namespace TwistLogic

/-- Why there is no algebra. -/
inductive AlgebraError where
  | lattice (fault : LatticeFault)
  | residuation (fault : ResiduationFault)
  /-- The text names no known family. -/
  | unknownFamily (spec : Text)
  /-- The size of a chain is not readable. -/
  | malformedSize (spec : Text)
  /-- A chain with fewer than two elements. -/
  | tooSmall (spec : Text)
  /-- A chain with more elements than a list can have. -/
  | tooLong
  /-- A chain whose tables do not fit into memory. -/
  | outOfMemory
  /-- A twist structure over nothing. -/
  | noBase
  deriving DecidableEq

/-- The wording of an algebra error. -/
def AlgebraError.text : AlgebraError → Text
  | lattice fault => ascii "invalid lattice: " ++ fault.text
  | residuation fault => ascii "not a residuated lattice: " ++ fault.text
  | unknownFamily spec =>
    ascii "unknown algebra " ++ spec.quoted ++
      ascii " (expected boolean, goedel:N or lukasiewicz:N)"
  | malformedSize spec => ascii "malformed chain size in " ++ spec.quoted
  | tooSmall spec => ascii "chain size in " ++ spec.quoted ++ ascii " must be at least 2"
  | tooLong => ascii "vector::reserve"
  | outOfMemory => ascii "std::bad_alloc"
  | noBase => ascii "cannot generate a twist structure without a residuated lattice"

/-- An equation `left * right = product` between named elements. -/
structure ProductTriple where
  left : Text
  right : Text
  product : Text
  deriving DecidableEq

/-- A residuated lattice given by names. -/
structure Presentation where
  elements : List Text
  order : List (Text × Text)
  products : List ProductTriple
  deriving DecidableEq

namespace Presentation

/-- The element with a name. -/
def resolve (l : FiniteLattice) (name : Text) : Except ResiduationFault ElementId :=
  match l.find? name with
  | some a => .ok a
  | none => .error (.unknownInTensor name)

/-- Enters one triple into a table of products. -/
def enter (l : FiniteLattice) (cells : Table (Option ElementId)) (p : ProductTriple) :
    Except ResiduationFault (Table (Option ElementId)) := do
  let a ← resolve l p.left
  let b ← resolve l p.right
  let c ← resolve l p.product
  match cells.get a b with
  | none => return cells.set a b (some c)
  | some d => if d = c then return cells else throw (.givenTwice p.left p.right)

/-- The product of two elements, given as it is or with its factors exchanged. -/
def productOf (l : FiniteLattice) (cells : Table (Option ElementId)) (a b : ElementId) :
    Except ResiduationFault ElementId :=
  match cells.get a b, cells.get b a with
  | some c, _ => .ok c
  | none, some c => .ok c
  | none, none => .error (.notGiven (l.name a) (l.name b))

/-- The rows of the product table that some triples give. -/
def productRows (l : FiniteLattice) (triples : List ProductTriple) :
    Except ResiduationFault (List (List ElementId)) := do
  let cells ← triples.foldlM (enter l) (.ofFn l.size fun _ _ => none)
  let elements := List.range l.size
  elements.mapM fun a => elements.mapM fun b => productOf l cells a b

/-- The algebra that a presentation describes. -/
def build (p : Presentation) : Except AlgebraError ResiduatedLattice := do
  let l ← (FiniteLattice.build p.elements p.order).mapError .lattice
  let rows ← (productRows l p.products).mapError .residuation
  (ResiduatedLattice.extend l rows).mapError .residuation

end Presentation

end TwistLogic
