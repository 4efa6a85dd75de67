import TwistLogic.Formula.Store

/-!
# The subformulas of a stored formula

`FormulaStore.subformulas?` walks over the nodes that a formula reaches and meets each of them
once.  The names of the atoms and of the actions among them are sorted sets.
-/

namespace TwistLogic

namespace FormulaStore

/-- Walks on from a stack of slots.  `seen` marks the numbers that the walk has met, `found` holds
their nodes; a slot that names no node ends the walk without an answer. -/
def walk (s : FormulaStore) (stack : List (Option FormulaId)) (seen : Array Bool)
    (found : List Node) : Option (List Node) :=
  match stack with
  | [] => some found
  | none :: _ => none
  | some id :: rest =>
    if h : id < seen.size then
      if seen[id] then s.walk rest seen found
      else match s.node? id with
        | none => none
        | some n => s.walk (n.children.reverse ++ rest) (seen.set id true) (n :: found)
    else none
termination_by 2 * seen.count false + stack.length
decreasing_by
  · simp
  · rename_i fresh
    have hpos : 0 < seen.count false := by
      rw [Array.count_pos_iff]
      simp only [Bool.not_eq_true] at fresh
      exact fresh ▸ Array.getElem_mem h
    have hlen : n.children.length ≤ 2 := by
      rw [Node.children, List.length_take]
      exact Nat.min_le_right _ _
    have hset : (seen.set id true).count false = seen.count false - 1 := by
      rw [Array.count_set]
      simp_all
    simp only [List.length_append, List.length_reverse, List.length_cons, hset]
    omega

/-- The nodes that a formula reaches, each once, the last one met first. -/
def subformulas? (s : FormulaStore) (id : FormulaId) : Option (List Node) :=
  s.walk [some id] (Array.replicate s.size false) []

/-- The name of a node that is an atom. -/
def atomName? (n : Node) : Option Text :=
  match n.kind with
  | .atom name => some name
  | _ => none

/-- The action of a node that is a modality. -/
def actionName? (n : Node) : Option Text :=
  match n.kind with
  | .modal _ action => some action
  | _ => none

/-- The names of the atoms of a formula, as a sorted set. -/
def atoms? (s : FormulaStore) (id : FormulaId) : Option (List Text) :=
  (s.subformulas? id).map fun ns => Text.sortedSet (ns.filterMap atomName?)

/-- The actions of the modalities of a formula, as a sorted set. -/
def actions? (s : FormulaStore) (id : FormulaId) : Option (List Text) :=
  (s.subformulas? id).map fun ns => Text.sortedSet (ns.filterMap actionName?)

end FormulaStore

end TwistLogic
