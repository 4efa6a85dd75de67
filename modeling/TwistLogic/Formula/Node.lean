import TwistLogic.Formula.Basic

/-!
# Nodes of shared formulas

A formula that is kept in a store is a `Node`: what stands at its root, and the numbers of the
formulas below it.  A node is free data.  Its slots may be empty or hold numbers that name
nothing; only the slots that `NodeKind.arity` counts are children.

Nodes are ordered through `Node.key`, which lists a node's contents and differs for different
nodes (`Node.key_injective`), so they can be the keys of a search tree.
-/

namespace TwistLogic

/-- The number of a formula in a store.  It has 32 bits if there are at most 2^32 nodes. -/
abbrev FormulaId := Nat

/-- What stands at the root of a formula. -/
inductive NodeKind where
  | top
  | bot
  | atom (name : Text)
  | neg
  | binary (c : Connective)
  | modal (m : Modality) (action : Text)
  deriving DecidableEq

namespace NodeKind

/-- How many children a formula with this root has. -/
def arity : NodeKind → Nat
  | top | bot | atom _ => 0
  | neg | modal _ _ => 1
  | binary _ => 2

/-- The sign of a root. -/
def symbol : NodeKind → Text
  | top => ascii "1"
  | bot => ascii "0"
  | atom _ => ascii "Atom"
  | neg => ascii "~"
  | binary c => c.symbol
  | modal m _ => m.symbol

/-- The name of an atom or the action of a modality; every other root has the empty name. -/
def name : NodeKind → Text
  | atom n => n
  | modal _ a => a
  | _ => []

/-- The number of a root's sign. -/
def code : NodeKind → Nat
  | top => 0
  | bot => 1
  | atom _ => 2
  | neg => 3
  | binary c => 4 + c.rank
  | modal .box _ => 9
  | modal .diamond _ => 10

/-- One root of every sign, in the order of their numbers. -/
def catalogue : List NodeKind :=
  [top, bot, atom [], neg, binary .and, binary .or, binary .resImplies, binary .implies,
    binary .iff, modal .box [], modal .diamond []]

/-- Sign and name determine a root. -/
theorem eq_of_code_eq_of_name_eq {k l : NodeKind} (hc : k.code = l.code) (hn : k.name = l.name) :
    k = l := by
  rcases k with _ | _ | n | _ | (_ | _ | _ | _ | _) | ⟨_ | _, a⟩ <;>
    rcases l with _ | _ | n' | _ | (_ | _ | _ | _ | _) | ⟨_ | _, a'⟩ <;>
    simp_all [code, name, Connective.rank]

end NodeKind

/-- A root with two slots for the formulas below it. -/
structure Node where
  kind : NodeKind
  left : Option FormulaId
  right : Option FormulaId
  deriving DecidableEq

namespace Node

/-- A root without children. -/
def leaf (kind : NodeKind) : Node := { kind, left := none, right := none }

/-- A root over one formula. -/
def unary (kind : NodeKind) (a : FormulaId) : Node := { kind, left := some a, right := none }

/-- A connective over two formulas. -/
def binary (c : Connective) (a b : FormulaId) : Node :=
  { kind := .binary c, left := some a, right := some b }

/-- The children: the slots that the root uses. -/
def children (n : Node) : List (Option FormulaId) := [n.left, n.right].take n.kind.arity

/-- The contents of a node in one list. -/
def key (n : Node) : List Nat :=
  n.kind.code :: n.left.elim 0 (· + 1) :: n.right.elim 0 (· + 1) :: n.kind.name.map UInt8.toNat

/-- Nodes with the same contents are the same. -/
theorem key_injective {m n : Node} (h : m.key = n.key) : m = n := by
  obtain ⟨k, a, b⟩ := m
  obtain ⟨k', a', b'⟩ := n
  simp only [key, List.cons.injEq] at h
  obtain ⟨hc, ha, hb, hn⟩ := h
  have hk : k = k' :=
    NodeKind.eq_of_code_eq_of_name_eq hc
      (List.map_inj_right (fun _ _ e => UInt8.toNat_inj.mp e) |>.mp hn)
  have slot : ∀ {x y : Option FormulaId}, x.elim 0 (· + 1) = y.elim 0 (· + 1) → x = y := by
    intro x y e
    cases x <;> cases y <;> simp_all
  rw [hk, slot ha, slot hb]

instance : Ord Node := ⟨compareOn key⟩

instance : Std.TransOrd Node := inferInstanceAs (Std.TransCmp (compareOn key))

instance : Std.LawfulEqOrd Node where
  eq_of_compare h := key_injective (Std.LawfulEqOrd.eq_of_compare h)
  compare_self {a} := Std.ReflOrd.compare_self (a := a.key)

end Node

end TwistLogic
