import TwistLogic.Algebra.Table
import TwistLogic.Text.Numeral

/-!
# Finite lattices

A `FiniteLattice` is given by the names of its elements and by pairs of names that generate its
order.  `FiniteLattice.build` closes the pairs under reflexivity and transitivity, checks that the
closure is antisymmetric, and tabulates the greatest lower and the least upper bound of every
two elements.  A presentation that is no lattice is refused for the first fault that is met, in the
order of the element numbers.
-/

namespace TwistLogic

/-! ### Faults -/

/-- Why a presentation is no lattice. -/
inductive LatticeFault where
  | noElements
  | duplicateElement (name : Text)
  /-- A pair of the order names something that is not listed. -/
  | unknownInOrder (lower upper unknown : Text)
  /-- Two elements are below each other. -/
  | notAntisymmetric (a b : Text)
  /-- The lower bounds of two elements have no greatest one. -/
  | noMeet (a b : Text) (bounds : List Text)
  /-- The upper bounds of two elements have no least one. -/
  | noJoin (a b : Text) (bounds : List Text)
  | topNotUnique (maximal : List Text)
  | bottomNotUnique (minimal : List Text)
  deriving DecidableEq

/-- Names in quotes, separated by commas. -/
def quotedList (names : List Text) : Text :=
  Text.separated (ascii ", ") (names.map Text.quoted)

/-- The remark about the bounds of two elements that have no best one. -/
def boundsRemark (side : Text) (bounds : List Text) : Text :=
  if bounds.isEmpty then ascii " (no common " ++ side ++ ascii " bound)"
  else ascii " (" ++ side ++ ascii " bounds: " ++ quotedList bounds ++ ascii ")"

/-- The wording of a fault. -/
def LatticeFault.text : LatticeFault → Text
  | noElements => ascii "element set is empty"
  | duplicateElement name => ascii "duplicate element " ++ name.quoted
  | unknownInOrder lower upper unknown =>
    ascii "order pair (" ++ lower.quoted ++ ascii ", " ++ upper.quoted ++
      ascii ") names unknown element " ++ unknown.quoted
  | notAntisymmetric a b =>
    ascii "order is not antisymmetric: " ++ a.quoted ++ ascii " <= " ++ b.quoted ++
      ascii " and " ++ b.quoted ++ ascii " <= " ++ a.quoted
  | noMeet a b bounds =>
    ascii "no unique meet for " ++ a.quoted ++ ascii " and " ++ b.quoted ++
      boundsRemark (ascii "lower") bounds
  | noJoin a b bounds =>
    ascii "no unique join for " ++ a.quoted ++ ascii " and " ++ b.quoted ++
      boundsRemark (ascii "upper") bounds
  | topNotUnique maximal =>
    ascii "top is not unique (maximal elements: " ++ quotedList maximal ++ ascii ")"
  | bottomNotUnique minimal =>
    ascii "bottom is not unique (minimal elements: " ++ quotedList minimal ++ ascii ")"

/-- A value that is no element of the algebra in use. -/
inductive Mismatch where
  /-- A number that is no element number. -/
  | elementIndex (index size : Nat)
  /-- A name that is no element name. -/
  | elementName (name : Text)
  /-- A pair of numbers that is no twist element; `what` says where it was met. -/
  | twistElement (what : Text) (t f : Nat)
  /-- A pair of names that is no twist element, and the first name that is unknown. -/
  | twistNames (t f unknown : Text)
  deriving DecidableEq

/-- What is wrong with a mismatched value. -/
def Mismatch.reason : Mismatch → Text
  | elementIndex index size =>
    ascii "element index " ++ Text.decimal index ++
      ascii " is out of range for a lattice of size " ++ Text.decimal size
  | elementName name => name.quoted ++ ascii " is not an element of the lattice"
  | twistElement what t f =>
    what ++ ascii " (" ++ Text.decimal t ++ ascii "," ++ Text.decimal f ++
      ascii ") is not an element of the twist structure"
  | twistNames t f unknown =>
    ascii "(" ++ t ++ ascii "," ++ f ++ ascii ") is not an element of the twist structure: " ++
      unknown.quoted ++ ascii " is not in the base lattice"

/-- The wording of a mismatch. -/
def Mismatch.text (m : Mismatch) : Text := ascii "type mismatch: " ++ m.reason

/-- Succeeds if there is no fault. -/
def refuse {ε : Type} : Option ε → Except ε Unit
  | none => .ok ()
  | some fault => .error fault

/-! ### Orders -/

/-- The first of some elements that is above all of them. -/
def greatest? (order : Table Bool) (xs : List ElementId) : Option ElementId :=
  xs.find? fun x => xs.all fun y => order.get y x

/-- The first of some elements that is below all of them. -/
def least? (order : Table Bool) (xs : List ElementId) : Option ElementId :=
  xs.find? fun x => xs.all fun y => order.get x y

/-- A relation on the numbers below `n`, enlarged by the steps that lead through `k`. -/
def throughPivot (n : Nat) (r : Table Bool) (k : ElementId) : Table Bool :=
  .ofFn n fun a b => r.get a b || (r.get a k && r.get k b)

/-- The least reflexive and transitive relation on the numbers below `n` that holds of some
pairs. -/
def closure (n : Nat) (pairs : List (ElementId × ElementId)) : Table Bool :=
  (List.range n).foldl (throughPivot n) (.ofFn n fun a b => a == b || pairs.contains (a, b))

/-! ### Lattices -/

/-- A finite lattice: the names of its elements, its order and its operations. -/
structure FiniteLattice where
  names : Array Text
  order : Table Bool
  meets : Table ElementId
  joins : Table ElementId
  top : ElementId
  bottom : ElementId
  deriving DecidableEq

namespace FiniteLattice

/-- The number of elements. -/
def size (l : FiniteLattice) : Nat := l.names.size

/-- Whether a number is the number of an element. -/
def contains (l : FiniteLattice) (a : ElementId) : Bool := a < l.size

/-- The order. -/
def leq (l : FiniteLattice) (a b : ElementId) : Bool := l.order.get a b

/-- The greatest lower bound of two elements. -/
def meet (l : FiniteLattice) (a b : ElementId) : ElementId := l.meets.get a b

/-- The least upper bound of two elements. -/
def join (l : FiniteLattice) (a b : ElementId) : ElementId := l.joins.get a b

/-- The greatest lower bound of a sequence; the top if it is empty. -/
def meetAll (l : FiniteLattice) (xs : List ElementId) : ElementId := xs.foldl l.meet l.top

/-- The least upper bound of a sequence; the bottom if it is empty. -/
def joinAll (l : FiniteLattice) (xs : List ElementId) : ElementId := xs.foldl l.join l.bottom

/-- The name of an element; a number that is none has the empty name. -/
def name (l : FiniteLattice) (a : ElementId) : Text := l.names.getD a []

/-- The name of an element, or why there is none. -/
def name? (l : FiniteLattice) (a : ElementId) : Except Mismatch Text :=
  match l.names[a]? with
  | some name => .ok name
  | none => .error (.elementIndex a l.size)

/-- The element with a name. -/
def find? (l : FiniteLattice) (name : Text) : Option ElementId := l.names.idxOf? name

/-- The element with a name, or why there is none. -/
def element? (l : FiniteLattice) (name : Text) : Except Mismatch ElementId :=
  match l.find? name with
  | some a => .ok a
  | none => .error (.elementName name)

/-- Whether nothing lies strictly between two elements, the first below the second. -/
def isCover (l : FiniteLattice) (a b : ElementId) : Bool :=
  a != b && l.leq a b &&
    (List.range l.size).all fun c => c == a || c == b || !(l.leq a c && l.leq c b)

/-- The covering pairs, in the order of their numbers. -/
def covers (l : FiniteLattice) : List (ElementId × ElementId) :=
  (List.range l.size).flatMap fun a =>
    ((List.range l.size).filter (l.isCover a)).map fun b => (a, b)

/-! ### Building a lattice -/

/-- The first name that stands in a list for the second time. -/
def duplicate? (seen : List Text) : List Text → Option Text
  | [] => none
  | name :: names =>
    if seen.contains name then some name else duplicate? (name :: seen) names

/-- The numbers of a pair of names. -/
def orderPair (names : Array Text) (p : Text × Text) :
    Except LatticeFault (ElementId × ElementId) :=
  match names.idxOf? p.1, names.idxOf? p.2 with
  | some a, some b => .ok (a, b)
  | none, _ => .error (.unknownInOrder p.1 p.2 p.1)
  | some _, none => .error (.unknownInOrder p.1 p.2 p.2)

/-- The first two elements that are below each other. -/
def antisymmetryFault? (names : Array Text) (order : Table Bool) : Option LatticeFault :=
  (List.range names.size).findSome? fun a =>
    (List.range' (a + 1) (names.size - (a + 1))).findSome? fun b =>
      if order.get a b && order.get b a then
        some (.notAntisymmetric (names.getD a []) (names.getD b []))
      else none

/-- The elements below two others. -/
def lowerBounds (n : Nat) (order : Table Bool) (a b : ElementId) : List ElementId :=
  (List.range n).filter fun x => order.get x a && order.get x b

/-- The elements above two others. -/
def upperBounds (n : Nat) (order : Table Bool) (a b : ElementId) : List ElementId :=
  (List.range n).filter fun x => order.get a x && order.get b x

/-- The first two elements without a meet or without a join. -/
def boundFault? (names : Array Text) (order : Table Bool)
    (meets joins : Table (Option ElementId)) : Option LatticeFault :=
  let n := names.size
  let named (xs : List ElementId) : List Text := xs.map fun x => names.getD x []
  (List.range n).findSome? fun a =>
    (List.range' a (n - a)).findSome? fun b =>
      if (meets.get a b).isNone then
        some (.noMeet (names.getD a []) (names.getD b []) (named (lowerBounds n order a b)))
      else if (joins.get a b).isNone then
        some (.noJoin (names.getD a []) (names.getD b []) (named (upperBounds n order a b)))
      else none

/-- The elements with nothing above them. -/
def maximal (n : Nat) (order : Table Bool) : List ElementId :=
  (List.range n).filter fun x => (List.range n).all fun y => x == y || !order.get x y

/-- The elements with nothing below them. -/
def minimal (n : Nat) (order : Table Bool) : List ElementId :=
  (List.range n).filter fun x => (List.range n).all fun y => x == y || !order.get y x

/-- The only member of a list. -/
def only? {α : Type} : List α → Option α
  | [x] => some x
  | _ => none

/-- The lattice with some elements, in the least order that holds of some pairs of them. -/
def build (elements : List Text) (pairs : List (Text × Text)) :
    Except LatticeFault FiniteLattice := do
  if elements.isEmpty then throw .noElements
  refuse ((duplicate? [] elements).map .duplicateElement)
  let names := elements.toArray
  let n := names.size
  let order := closure n (← pairs.mapM (orderPair names))
  refuse (antisymmetryFault? names order)
  let meets := Table.ofFn n fun a b => greatest? order (lowerBounds n order a b)
  let joins := Table.ofFn n fun a b => least? order (upperBounds n order a b)
  refuse (boundFault? names order meets joins)
  let named (xs : List ElementId) : List Text := xs.map fun x => names.getD x []
  match only? (maximal n order), only? (minimal n order) with
  | none, _ => throw (.topNotUnique (named (maximal n order)))
  | some _, none => throw (.bottomNotUnique (named (minimal n order)))
  | some top, some bottom =>
    return {
      names, order, top, bottom
      meets := .ofFn n fun a b => (meets.get a b).getD 0
      joins := .ofFn n fun a b => (joins.get a b).getD 0 }

end FiniteLattice

end TwistLogic
