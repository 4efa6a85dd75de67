import TwistLogic.Formula.Node
import Std.Data.TreeMap

/-!
# The formula store

A `FormulaStore` keeps every formula once.  Its nodes refer to each other by number, and an index
finds the number of a node that is already there, so `FormulaStore.intern` gives equal nodes equal
numbers.  The numbers `0` and `1` are the constants.

`FormulaStore.add` puts a formula into the store, children first and from left to right.
`FormulaStore.tree?` is the way back: the formula that a number stands for, if every number that
it meets names a node.
-/

namespace TwistLogic

/-- Nodes by number, and the number of every node. -/
structure FormulaStore where
  nodes : Array Node
  index : Std.TreeMap Node FormulaId

namespace FormulaStore

/-- How many nodes are kept. -/
def size (s : FormulaStore) : Nat := s.nodes.size

/-- The node with a number. -/
def node? (s : FormulaStore) (id : FormulaId) : Option Node := s.nodes[id]?

/-! ### Putting formulas in -/

/-- The number of a node, which is appended if it is not there yet. -/
def intern (s : FormulaStore) (n : Node) : FormulaId × FormulaStore :=
  match s.index[n]? with
  | some id => (id, s)
  | none =>
    (s.nodes.size, { nodes := s.nodes.push n, index := s.index.insert n s.nodes.size })

/-- The store that holds the two constants and nothing else. -/
def initial : FormulaStore :=
  let none : FormulaStore := { nodes := #[], index := ∅ }
  ((none.intern (.leaf .top)).2.intern (.leaf .bot)).2

/-- The number of a formula, whose subformulas are appended where they are missing. -/
def add (s : FormulaStore) : Formula → FormulaId × FormulaStore
  | .top => s.intern (.leaf .top)
  | .bot => s.intern (.leaf .bot)
  | .atom name => s.intern (.leaf (.atom name))
  | .neg φ =>
    let (a, s) := s.add φ
    s.intern (.unary .neg a)
  | .binary c φ ψ =>
    let (a, s) := s.add φ
    let (b, s) := s.add ψ
    s.intern (.binary c a b)
  | .modal m action φ =>
    let (a, s) := s.add φ
    s.intern (.unary (.modal m action) a)

/-- The store with all the given formulas added in order. -/
def addAll (s : FormulaStore) (φs : List Formula) : FormulaStore :=
  φs.foldl (fun s φ => (s.add φ).2) s

/-- The root of a formula over other slots. -/
def rebuild? (s : FormulaStore) (id : FormulaId) (left right : Option FormulaId) :
    Option (FormulaId × FormulaStore) :=
  (s.node? id).map fun n => s.intern { kind := n.kind, left, right }

/-! ### Reading formulas back -/

/-- The formula in a slot, if no path below it has more than `fuel` nodes. -/
def treeWithin (s : FormulaStore) : Nat → Option FormulaId → Option Formula
  | 0, _ => none
  | _, none => none
  | fuel + 1, some id => do
    let n ← s.node? id
    match n.kind with
    | .top => some .top
    | .bot => some .bot
    | .atom name => some (.atom name)
    | .neg => .neg <$> s.treeWithin fuel n.left
    | .binary c => return .binary c (← s.treeWithin fuel n.left) (← s.treeWithin fuel n.right)
    | .modal m action => .modal m action <$> s.treeWithin fuel n.left

/-- The formula that a number stands for.  A path without repetition has at most as many nodes as
the store, so the bound excludes only circular stores. -/
def tree? (s : FormulaStore) (id : FormulaId) : Option Formula := s.treeWithin s.size (some id)

/-- The text of a stored formula. -/
def text? (s : FormulaStore) (id : FormulaId) : Option Text := (s.tree? id).map Formula.text

/-- The modal depth of a stored formula. -/
def depth? (s : FormulaStore) (id : FormulaId) : Option Nat := (s.tree? id).map Formula.depth

/-- The number of nodes of a stored formula, shared ones counted at each occurrence. -/
def treeSize? (s : FormulaStore) (id : FormulaId) : Option Nat := (s.tree? id).map Formula.size

end FormulaStore

end TwistLogic
