import TwistLogic.Algebra.Residuated

/-!
# Certificates

A `Certificate` records for each law of residuated lattices whether an algebra obeys it, with the
elements at which it does not.  It is a solver that finds this out.
-/

namespace TwistLogic

/-- The outcome of checking one law. -/
inductive LawStatus where
  | holds
  | unknown
  /-- The law fails at some elements, whose names are given. -/
  | violated (witness : List Text)
  deriving DecidableEq

/-- A law by its name, and the outcome of checking it. -/
structure LawCheck where
  law : Text
  status : LawStatus
  deriving DecidableEq

/-- The outcomes of checking several laws. -/
structure Certificate where
  laws : List LawCheck
  deriving DecidableEq

/-- Whether every law was found to hold. -/
def Certificate.ok (c : Certificate) : Bool := c.laws.all fun l => l.status == .holds

/-- The wording of an outcome. -/
def LawStatus.text : LawStatus → Text
  | holds => ascii "holds"
  | unknown => ascii "unknown"
  | violated witness => ascii "VIOLATED at (" ++ Text.separated (ascii ", ") witness ++ ascii ")"

/-- One line about a law. -/
def LawCheck.line (l : LawCheck) : Text :=
  ascii "  " ++ l.law ++ ascii ": " ++ l.status.text ++ ascii "\n"

/-- One line for every law. -/
def Certificate.text (c : Certificate) : Text := c.laws.flatMap LawCheck.line

/-- The laws of residuated lattices, in the order in which they are checked. -/
def Certificate.lawNames : List Text :=
  ["meet-glb", "join-lub", "tensor-commutative", "tensor-associative", "tensor-identity",
    "tensor-monotone", "adjunction"].map ascii

/-- The certificate of a solver that decides nothing. -/
def Certificate.undecided : Certificate :=
  { laws := lawNames.map fun law => { law, status := .unknown } }

end TwistLogic
