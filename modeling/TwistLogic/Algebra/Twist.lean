import TwistLogic.Algebra.Presentation

/-!
# Twist structures

A twist element is a pair of elements of a residuated lattice: the evidence for a statement and the
evidence against it.  The truth order asks for more evidence for and less against, the knowledge
order for more of both.  Negation exchanges the two sides.

A `TwistStructure` lists all pairs over its base, ordered by their numbers, and keeps negation as
a table of 32-bit positions in that list.
-/

namespace TwistLogic

/-- Evidence for and evidence against. -/
structure TwistElement where
  t : ElementId
  f : ElementId
  deriving DecidableEq

/-- The binary operations that can be tabulated. -/
inductive TwistOp where
  | meet
  | join
  | implication
  | consensus
  | acceptAll
  | residueMeet
  deriving DecidableEq

namespace TwistOp

/-- The name of an operation. -/
def name : TwistOp → Text
  | meet => ascii "meet"
  | join => ascii "join"
  | implication => ascii "implication"
  | consensus => ascii "consensus"
  | acceptAll => ascii "accept-all"
  | residueMeet => ascii "residue-meet"

/-- The operations in the order of their numbers. -/
def catalogue : List TwistOp := [meet, join, implication, consensus, acceptAll, residueMeet]

/-- The operation with a number. -/
def ofCode? (code : UInt8) : Option TwistOp := catalogue[code.toNat]?

end TwistOp

/-- All pairs over a residuated lattice. -/
structure TwistStructure where
  base : ResiduatedLattice
  elements : Array TwistElement
  /-- The position of the negation of each element. -/
  negations : Array UInt32
  deriving DecidableEq

namespace TwistStructure

variable (ts : TwistStructure)

/-! ### The elements -/

/-- The number of elements. -/
def size : Nat := ts.elements.size

/-- The position of a pair in the order of the elements of a base of `n` elements. -/
def position (n : Nat) (x : TwistElement) : Nat := x.t * n + x.f

/-- The position of an element. -/
def index (x : TwistElement) : Nat := position ts.base.size x

/-- Whether a pair is an element. -/
def contains (x : TwistElement) : Bool := x.t < ts.base.size && x.f < ts.base.size

/-- All pairs of numbers below `n`, the first components leading. -/
def pairs (n : Nat) : List TwistElement :=
  (List.range n).flatMap fun t => (List.range n).map fun f => { t, f }

/-- The twist structure over a residuated lattice, whose adjunction is checked again. -/
def generate : Option ResiduatedLattice → Except AlgebraError TwistStructure
  | none => .error .noBase
  | some base => do
    refuse (base.adjunctionFault?.map .residuation)
    let elements := pairs base.size
    return {
      base
      elements := elements.toArray
      negations :=
        (elements.map fun x => UInt32.ofNat (position base.size ⟨x.f, x.t⟩)).toArray }

/-- Refuses a pair that is no element; `what` says where it was met. -/
def require (x : TwistElement) (what : Text) : Except Mismatch Unit :=
  if ts.contains x then .ok () else .error (.twistElement what x.t x.f)

/-- The element with the names of its two components. -/
def element? (t f : Text) : Except Mismatch TwistElement :=
  match ts.base.lattice.find? t, ts.base.lattice.find? f with
  | some a, some b => .ok ⟨a, b⟩
  | none, _ => .error (.twistNames t f t)
  | some _, none => .error (.twistNames t f f)

/-- The names of the two components of an element. -/
def names? (x : TwistElement) : Except Mismatch (Text × Text) := do
  let t ← ts.base.lattice.name? x.t
  let f ← ts.base.lattice.name? x.f
  return (t, f)

/-- An element by its names, or a pair that is none by its numbers. -/
def text (x : TwistElement) : Text :=
  if ts.contains x then
    ascii "(" ++ ts.base.name x.t ++ ascii "," ++ ts.base.name x.f ++ ascii ")"
  else
    ascii "(?" ++ Text.decimal x.t ++ ascii ",?" ++ Text.decimal x.f ++ ascii ")"

/-! ### The truth order -/

/-- All evidence for and none against. -/
def absoluteTrue : TwistElement := ⟨ts.base.top, ts.base.bottom⟩

/-- All evidence against and none for. -/
def absoluteFalse : TwistElement := ⟨ts.base.bottom, ts.base.top⟩

/-- The truth order: no less evidence for, no more against. -/
def leq (x y : TwistElement) : Bool := ts.base.leq x.t y.t && ts.base.leq y.f x.f

/-- The greatest lower bound in the truth order. -/
def meet (x y : TwistElement) : TwistElement := ⟨ts.base.meet x.t y.t, ts.base.join x.f y.f⟩

/-- The least upper bound in the truth order. -/
def join (x y : TwistElement) : TwistElement := ⟨ts.base.join x.t y.t, ts.base.meet x.f y.f⟩

/-- The element with its two sides exchanged, as the table of negation has it. -/
def negation (x : TwistElement) : TwistElement :=
  ts.elements.getD (ts.negations.getD (ts.index x) 0).toNat ⟨0, 0⟩

/-- The residuated implication. -/
def implication (x y : TwistElement) : TwistElement :=
  ⟨ts.base.residuum x.t y.t, ts.base.tensor x.t y.f⟩

/-- The greatest lower bound of a sequence; absolute truth if it is empty. -/
def meetAll (xs : List TwistElement) : TwistElement := xs.foldl ts.meet ts.absoluteTrue

/-- The least upper bound of a sequence; absolute falsity if it is empty. -/
def joinAll (xs : List TwistElement) : TwistElement := xs.foldl ts.join ts.absoluteFalse

/-! ### The knowledge order -/

/-- The knowledge order: no less evidence on either side. -/
def knowledgeLeq (x y : TwistElement) : Bool := ts.base.leq x.t y.t && ts.base.leq x.f y.f

/-- The greatest lower bound in the knowledge order. -/
def consensus (x y : TwistElement) : TwistElement :=
  ⟨ts.base.meet x.t y.t, ts.base.meet x.f y.f⟩

/-- The least upper bound in the knowledge order. -/
def acceptAll (x y : TwistElement) : TwistElement :=
  ⟨ts.base.join x.t y.t, ts.base.join x.f y.f⟩

/-- The product of the twist algebra: evidence against it is what either side implies against the
other. -/
def residueMeet (x y : TwistElement) : TwistElement :=
  ⟨ts.base.meet x.t y.t, ts.base.meet (ts.base.residuum x.t y.f) (ts.base.residuum y.t x.f)⟩

/-! ### Operations by number -/

/-- The value of an operation. -/
def apply : TwistOp → TwistElement → TwistElement → TwistElement
  | .meet => ts.meet
  | .join => ts.join
  | .implication => ts.implication
  | .consensus => ts.consensus
  | .acceptAll => ts.acceptAll
  | .residueMeet => ts.residueMeet

/-- All values of an operation, row by row in the order of the elements. -/
def materialise (op : TwistOp) : List TwistElement :=
  ts.elements.toList.flatMap fun x => ts.elements.toList.map fun y => ts.apply op x y

end TwistStructure

end TwistLogic
