import TwistLogic.Algebra.Presentation

/-!
# Chains

The algebras that have a name of their own.  A chain of `n` elements has the names `0`, then
`1/(n-1)`, `2/(n-1)` and so on, and `1`, in increasing order.  Gödel chains multiply by the minimum,
Łukasiewicz chains by the sum less the greatest number.  `boolean` is the Gödel chain of two
elements.

`Chain.ofSpecWithin` reads the name of an algebra: `boolean`, or a family, a colon and a number of
elements.  The number has to leave room for a table with a cell for every pair of elements.
-/

namespace TwistLogic

/-- The two families of chains. -/
inductive ChainFamily where
  | goedel
  | lukasiewicz
  deriving DecidableEq

namespace ChainFamily

/-- The product of two elements of a chain of `n` elements. -/
def product (n : Nat) : ChainFamily → ElementId → ElementId → ElementId
  | goedel, a, b => min a b
  | lukasiewicz, a, b => a + b - (n - 1)

/-- The family with a name. -/
def ofName? (name : Text) : Option ChainFamily :=
  if name = ascii "goedel" then some .goedel
  else if name = ascii "lukasiewicz" then some .lukasiewicz
  else none

end ChainFamily

namespace Chain

/-- The name of element `k` in a chain of `n` elements. -/
def elementName (n k : Nat) : Text :=
  if k = 0 then ascii "0"
  else if k = n - 1 then ascii "1"
  else Text.decimal k ++ ascii "/" ++ Text.decimal (n - 1)

/-- The names of the elements of a chain of `n` elements. -/
def elementNames (n : Nat) : List Text := (List.range n).map (elementName n)

/-- The lattice of a chain of `n` elements; each name is below the next. -/
def lattice (n : Nat) : Except LatticeFault FiniteLattice :=
  FiniteLattice.build (elementNames n) ((elementNames n).zip (elementNames n).tail)

/-- The chain of `n` elements with the product of a family. -/
def build (family : ChainFamily) (n : Nat) : Except AlgebraError ResiduatedLattice := do
  let l ← (lattice n).mapError .lattice
  let elements := List.range n
  let rows := elements.map fun a => elements.map fun b => family.product n a b
  (ResiduatedLattice.extend l rows).mapError .residuation

/-- The greatest length of a list of names: a name takes `2 ^ 5` bytes, and all of them together
less than `2 ^ 63`. -/
def maxLength : Nat := UInt64.size / 64 - 1

/-- Whether tables with a cell for every pair of `n` elements have at most a given number of
cells. -/
def fits (cells n : Nat) : Bool := n * n ≤ cells

/-- The size of a chain, written behind the colon of a name. -/
def sizeOfSpec (cells : Nat) (spec size : Text) : Except AlgebraError Nat :=
  match size.readWord64 with
  | none => .error (.malformedSize spec)
  | some n =>
    if n < 2 then .error (.tooSmall spec)
    else if maxLength < n then .error .tooLong
    else if fits cells n then .ok n
    else .error .outOfMemory

/-- The algebra with a name, if its tables have at most the given number of cells. -/
def ofSpecWithin (cells : Nat) (spec : Text) : Except AlgebraError ResiduatedLattice :=
  if spec = ascii "boolean" then build .goedel 2
  else
    match spec.dropWhile (· != byte ':') with
    | [] => .error (.unknownFamily spec)
    | _ :: size =>
      match ChainFamily.ofName? (spec.takeWhile (· != byte ':')) with
      | none => .error (.unknownFamily spec)
      | some family => do build family (← sizeOfSpec cells spec size)

end Chain

end TwistLogic
