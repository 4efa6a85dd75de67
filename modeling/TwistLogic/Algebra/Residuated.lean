import TwistLogic.Algebra.Lattice

/-!
# Residuated lattices

A residuated lattice is a lattice with a commutative, associative and monotone product whose unit
is the top, such that for all `b` and `c` the elements `a` with `a * b ≤ c` have a greatest one, the
residuum `b → c`.

`ResiduatedLattice.extend` takes a lattice and a product table of any shape, checks the laws and
tabulates the residuum.  The laws are checked in one fixed order, so a table that breaks several of
them is refused for the first.
-/

namespace TwistLogic

/-! ### Faults -/

/-- Why a product table does not make a lattice residuated. -/
inductive ResiduationFault where
  | rowCount (found expected : Nat)
  | rowLength (a : Text) (found expected : Nat)
  /-- The product of two elements is no element. -/
  | notAnElement (a b : Text)
  | topNotUnit (a : Text)
  | notCommutative (a b : Text)
  | notAssociative (a b c : Text)
  | notMonotone (a b c : Text)
  | noResiduum (b c : Text)
  | noAdjunction (a b c : Text)
  /-- A triple of a presentation names something that is not listed. -/
  | unknownInTensor (name : Text)
  /-- Two triples of a presentation give different products. -/
  | givenTwice (a b : Text)
  /-- No triple of a presentation gives a product. -/
  | notGiven (a b : Text)
  deriving DecidableEq

/-- The wording of a fault. -/
def ResiduationFault.text : ResiduationFault → Text
  | rowCount found expected =>
    ascii "tensor table has " ++ Text.decimal found ++ ascii " rows, expected " ++
      Text.decimal expected
  | rowLength a found expected =>
    ascii "tensor row for " ++ a.quoted ++ ascii " has " ++ Text.decimal found ++
      ascii " entries, expected " ++ Text.decimal expected
  | notAnElement a b =>
    ascii "tensor of " ++ a.quoted ++ ascii " and " ++ b.quoted ++ ascii " is not an element"
  | topNotUnit a => ascii "top is not the identity of the tensor at " ++ a.quoted
  | notCommutative a b =>
    ascii "tensor is not commutative at (" ++ a.quoted ++ ascii ", " ++ b.quoted ++ ascii ")"
  | notAssociative a b c =>
    ascii "tensor is not associative at (" ++ a.quoted ++ ascii ", " ++ b.quoted ++ ascii ", " ++
      c.quoted ++ ascii ")"
  | notMonotone a b c =>
    ascii "tensor is not monotone: " ++ a.quoted ++ ascii " <= " ++ b.quoted ++
      ascii " but not after multiplying by " ++ c.quoted
  | noResiduum b c =>
    ascii "no maximum a with a * " ++ b.quoted ++ ascii " <= " ++ c.quoted
  | noAdjunction a b c =>
    ascii "adjunction fails for (" ++ a.quoted ++ ascii ", " ++ b.quoted ++ ascii ", " ++
      c.quoted ++ ascii ")"
  | unknownInTensor name => ascii "tensor mentions unknown element " ++ name.quoted
  | givenTwice a b =>
    ascii "tensor(" ++ a ++ ascii ", " ++ b ++ ascii ") is given twice with different results"
  | notGiven a b => ascii "tensor(" ++ a ++ ascii ", " ++ b ++ ascii ") is not defined"

/-! ### Residuated lattices -/

/-- A lattice with a product and its residuum. -/
structure ResiduatedLattice where
  lattice : FiniteLattice
  products : Table ElementId
  residua : Table ElementId
  deriving DecidableEq

namespace ResiduatedLattice

variable (r : ResiduatedLattice)

/-- The number of elements. -/
def size : Nat := r.lattice.size

/-- The order. -/
def leq (a b : ElementId) : Bool := r.lattice.leq a b

/-- The greatest lower bound of two elements. -/
def meet (a b : ElementId) : ElementId := r.lattice.meet a b

/-- The least upper bound of two elements. -/
def join (a b : ElementId) : ElementId := r.lattice.join a b

/-- The product of two elements. -/
def tensor (a b : ElementId) : ElementId := r.products.get a b

/-- The greatest element whose product with `b` is below `c`. -/
def residuum (b c : ElementId) : ElementId := r.residua.get b c

/-- The greatest element. -/
def top : ElementId := r.lattice.top

/-- The least element. -/
def bottom : ElementId := r.lattice.bottom

/-- The name of an element. -/
def name (a : ElementId) : Text := r.lattice.name a

/-! ### The laws -/

/-- The first entry of a product table that is out of place: a row count, a row length or a
number that is no element. -/
def shapeFault? (l : FiniteLattice) (rows : List (List ElementId)) : Option ResiduationFault :=
  let n := l.size
  if rows.length ≠ n then some (.rowCount rows.length n)
  else rows.zipIdx.findSome? fun (row, a) =>
    if row.length ≠ n then some (.rowLength (l.name a) row.length n)
    else row.zipIdx.findSome? fun (c, b) =>
      if l.contains c then none else some (.notAnElement (l.name a) (l.name b))

/-- The table with given rows. -/
def tableOfRows (rows : List (List ElementId)) : Table ElementId :=
  { rows := (rows.map List.toArray).toArray }

/-- The first law of a commutative monotone monoid with the top as its unit that a product
breaks. -/
def monoidFault? (l : FiniteLattice) (p : Table ElementId) : Option ResiduationFault :=
  let elements := List.range l.size
  elements.findSome? fun a =>
    if p.get a l.top ≠ a || p.get l.top a ≠ a then some (.topNotUnit (l.name a))
    else elements.findSome? fun b =>
      if p.get a b ≠ p.get b a then some (.notCommutative (l.name a) (l.name b))
      else elements.findSome? fun c =>
        if p.get (p.get a b) c ≠ p.get a (p.get b c) then
          some (.notAssociative (l.name a) (l.name b) (l.name c))
        else if l.leq a b && !l.leq (p.get a c) (p.get b c) then
          some (.notMonotone (l.name a) (l.name b) (l.name c))
        else none

/-- The elements whose product with `b` is below `c`. -/
def residuumCandidates (l : FiniteLattice) (p : Table ElementId) (b c : ElementId) :
    List ElementId :=
  (List.range l.size).filter fun a => l.leq (p.get a b) c

/-- The first two elements without a residuum. -/
def residuumFault? (l : FiniteLattice) (residua : Table (Option ElementId)) :
    Option ResiduationFault :=
  let elements := List.range l.size
  elements.findSome? fun b => elements.findSome? fun c =>
    if (residua.get b c).isNone then some (.noResiduum (l.name b) (l.name c)) else none

/-- The first three elements at which `a * b ≤ c` and `a ≤ b → c` differ. -/
def adjunctionFault? : Option ResiduationFault :=
  let elements := List.range r.size
  elements.findSome? fun a => elements.findSome? fun b => elements.findSome? fun c =>
    if r.leq (r.tensor a b) c ≠ r.leq a (r.residuum b c) then
      some (.noAdjunction (r.name a) (r.name b) (r.name c))
    else none

/-- The residuated lattice on a lattice with a product table. -/
def extend (l : FiniteLattice) (rows : List (List ElementId)) :
    Except ResiduationFault ResiduatedLattice := do
  refuse (shapeFault? l rows)
  let products := tableOfRows rows
  refuse (monoidFault? l products)
  let residua := Table.ofFn l.size fun b c =>
    greatest? l.order (residuumCandidates l products b c)
  refuse (residuumFault? l residua)
  let r : ResiduatedLattice :=
    { lattice := l, products, residua := .ofFn l.size fun b c => (residua.get b c).getD 0 }
  refuse r.adjunctionFault?
  return r

end ResiduatedLattice

end TwistLogic
