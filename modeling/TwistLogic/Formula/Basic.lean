import TwistLogic.Text.Layout

/-!
# Formulas

The modal language: two constants, named atoms, a negation, five binary connectives and, for every
action, a box and a diamond.  `Formula.text` writes a formula with all its parentheses;
`Formula.depth` and `Formula.size` measure it; `Formula.atoms` and `Formula.actions` list the names
that occur in it.
-/

namespace TwistLogic

/-- The binary connectives, from the one that binds tightest. -/
inductive Connective where
  /-- Weak meet. -/
  | and
  /-- Weak join. -/
  | or
  /-- Residuated implication. -/
  | resImplies
  /-- Material implication. -/
  | implies
  /-- Material equivalence. -/
  | iff
  deriving DecidableEq

namespace Connective

/-- How a connective is written. -/
def symbol : Connective → Text
  | .and => ascii "&"
  | .or => ascii "|"
  | .resImplies => ascii "=>"
  | .implies => ascii "->"
  | .iff => ascii "<->"

/-- How loosely a connective binds; a smaller rank is tighter. -/
def rank : Connective → Nat
  | .and => 0
  | .or => 1
  | .resImplies => 2
  | .implies => 3
  | .iff => 4

/-- Whether a chain of the connective groups to the right. -/
def groupsRight : Connective → Bool
  | .resImplies => true
  | _ => false

/-- Whether an operand between `c` on its left and `d` on its right belongs to `c`. -/
def takesBefore (c d : Connective) : Bool :=
  c.rank < d.rank || (c == d && !c.groupsRight)

end Connective

/-- The two modalities. -/
inductive Modality where
  /-- Holds at all successors. -/
  | box
  /-- Holds at some successor. -/
  | diamond
  deriving DecidableEq

namespace Modality

/-- The bracket that opens the short spelling. -/
def opening : Modality → UInt8
  | .box => byte '['
  | .diamond => byte '<'

/-- The bracket that closes the short spelling. -/
def closing : Modality → UInt8
  | .box => byte ']'
  | .diamond => byte '>'

/-- The empty pair of brackets, which begins the long spelling. -/
def symbol (m : Modality) : Text := [m.opening, m.closing]

/-- The English name of the modality. -/
def noun : Modality → Text
  | .box => ascii "box"
  | .diamond => ascii "diamond"

end Modality

/-- Formulas of the modal language. -/
inductive Formula where
  /-- Absolute truth. -/
  | top
  /-- Absolute falsity. -/
  | bot
  /-- A proposition. -/
  | atom (name : Text)
  /-- Negation. -/
  | neg (φ : Formula)
  /-- Two formulas under a connective. -/
  | binary (c : Connective) (φ ψ : Formula)
  /-- A formula under the modality of an action. -/
  | modal (m : Modality) (action : Text) (φ : Formula)
  deriving DecidableEq

namespace Formula

/-- The formula with all its parentheses; modalities have the spelling with the underscore. -/
def text : Formula → Text
  | top => ascii "1"
  | bot => ascii "0"
  | atom name => name
  | neg φ => ascii "(~" ++ φ.text ++ ascii ")"
  | binary c φ ψ =>
    ascii "(" ++ φ.text ++ ascii " " ++ c.symbol ++ ascii " " ++ ψ.text ++ ascii ")"
  | modal m action φ =>
    ascii "(" ++ m.symbol ++ ascii "_" ++ action ++ ascii " " ++ φ.text ++ ascii ")"

/-- The deepest nesting of modalities. -/
def depth : Formula → Nat
  | top | bot | atom _ => 0
  | neg φ => φ.depth
  | binary _ φ ψ => max φ.depth ψ.depth
  | modal _ _ φ => φ.depth + 1

/-- The number of nodes of the tree. -/
def size : Formula → Nat
  | top | bot | atom _ => 1
  | neg φ | modal _ _ φ => φ.size + 1
  | binary _ φ ψ => φ.size + ψ.size + 1

/-- The names of the atoms, from left to right, with repetition. -/
def atoms : Formula → List Text
  | top | bot => []
  | atom name => [name]
  | neg φ | modal _ _ φ => φ.atoms
  | binary _ φ ψ => φ.atoms ++ ψ.atoms

/-- The labels of the modalities, from left to right, with repetition. -/
def actions : Formula → List Text
  | top | bot | atom _ => []
  | neg φ => φ.actions
  | binary _ φ ψ => φ.actions ++ ψ.actions
  | modal _ action φ => action :: φ.actions

end Formula

end TwistLogic
