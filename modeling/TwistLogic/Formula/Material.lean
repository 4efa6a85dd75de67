import TwistLogic.Formula.Store

/-!
# Eliminating the material connectives

`φ -> ψ` means `~φ | ψ`, and `φ <-> ψ` means `(~φ | ψ) & (~ψ | φ)`.
`FormulaStore.eliminateMaterial` expands a stored formula by these two rules, from the leaves up.
Both operands of a connective are expanded before any node of the result is made.

A slot is looked up when the expansion reaches it, so it may name a node that was appended on the
way.  `FormulaStore.expansionBound` counts those nodes in.
-/

namespace TwistLogic

/-- A computation that adds nodes to a store and may fail; the nodes added so far stay. -/
abbrev Interning := OptionT (StateM FormulaStore)

namespace FormulaStore

/-- `FormulaStore.intern` on the current store. -/
def interned (n : Node) : Interning FormulaId := modifyGet fun s => s.intern n

/-- The node in a slot of the current store. -/
def nodeIn (slot : Option FormulaId) : Interning (FormulaId × Node) := do
  match slot with
  | none => failure
  | some id =>
    match (← get).node? id with
    | none => failure
    | some n => return (id, n)

/-- The node for `~a | b`. -/
def materialImplication (a b : FormulaId) : Interning FormulaId := do
  let na ← interned (.unary .neg a)
  interned (.binary .or na b)

/-- Expands the formula in a slot, if no path below it has more than `fuel` nodes. -/
def eliminateWithin : Nat → Option FormulaId → Interning FormulaId
  | 0, _ => failure
  | fuel + 1, slot => do
    let (id, n) ← nodeIn slot
    match n.kind with
    | .top | .bot | .atom _ => return id
    | .neg | .modal _ _ =>
      let a ← eliminateWithin fuel n.left
      interned (.unary n.kind a)
    | .binary c =>
      let a ← eliminateWithin fuel n.left
      let b ← eliminateWithin fuel n.right
      match c with
      | .implies => materialImplication a b
      | .iff =>
        let forth ← materialImplication a b
        let back ← materialImplication b a
        interned (.binary .and forth back)
      | c => interned (.binary c a b)

/-- How far down an expansion can go.  Each node of the store causes at most five new ones, since a
result has nothing left to expand, and an expansion that meets a node below itself never ends. -/
def expansionBound (s : FormulaStore) : Nat := 6 * s.size

/-- The number of a formula without material connectives that means the same as a given one. -/
def eliminateMaterial (s : FormulaStore) (id : FormulaId) : Option FormulaId × FormulaStore :=
  (eliminateWithin s.expansionBound (some id)).run s

end FormulaStore

end TwistLogic
