import TwistLogic.Formula.Token
import TwistLogic.Text.Numeral

/-!
# Syntax errors

Why a source is no formula.  A `SyntaxFault` is the cause, an error the cause together with the
token and the place that it points at; `SyntaxError.message` words it.
-/

namespace TwistLogic

/-- The causes for which a source is rejected: first those of single tokens, then those of their
order. -/
inductive SyntaxFault where
  /-- A word that begins with a digit and is neither `0` nor `1`. -/
  | notAConstant (word : Text)
  /-- The front of an arrow without the rest of it. -/
  | brokenArrow (found wanted : Text)
  /-- An empty pair of brackets that no label follows. -/
  | missingLabel (m : Modality)
  /-- A bracket that no label follows. -/
  | emptyLabel (m : Modality)
  /-- A label that no closing bracket follows. -/
  | unclosedLabel (m : Modality) (action : Text)
  /-- A byte that begins no token. -/
  | unexpectedByte (c : UInt8)
  /-- No token at all. -/
  | emptyFormula
  /-- The input ends where an operand has to stand. -/
  | missingOperandAfter (token : Text)
  /-- A token stands in the place of an operand. -/
  | missingOperandBefore (token : Text)
  /-- The input ends inside a parenthesis. -/
  | unmatchedOpen
  /-- A closing parenthesis that none opens. -/
  | unmatchedClose
  /-- A token stands in the place of a closing parenthesis. -/
  | expectedClose (column : Nat) (found : Text)
  /-- A token follows a whole formula. -/
  | trailing (token : Text)
  deriving DecidableEq

/-- The wording of a cause. -/
def SyntaxFault.text : SyntaxFault → Text
  | notAConstant word =>
    ascii "unknown token " ++ word.quoted ++ ascii " (only the constants 0 and 1 are numeric)"
  | brokenArrow found wanted =>
    ascii "unknown token " ++ found.quoted ++ ascii " (did you mean " ++ wanted.quoted ++ ascii "?)"
  | missingLabel m =>
    ascii "modal operator " ++ m.symbol.quoted ++ ascii " requires an action label (" ++
      (m.symbol ++ ascii "_a").quoted ++ ascii ")"
  | emptyLabel m => m.noun ++ ascii " operator requires an action label"
  | unclosedLabel m action =>
    ascii "expected " ++ Text.quoted [m.closing] ++ ascii " after action label " ++ action.quoted
  | unexpectedByte c => ascii "unexpected character " ++ Text.quoted [c]
  | emptyFormula => ascii "empty formula"
  | missingOperandAfter token => ascii "missing operand after " ++ token.quoted
  | missingOperandBefore token => ascii "missing operand before " ++ token.quoted
  | unmatchedOpen => ascii "unmatched '('"
  | unmatchedClose => ascii "unmatched ')'"
  | expectedClose column found =>
    ascii "expected ')' to close '(' at column " ++ Text.decimal column ++ ascii ", got " ++
      found.quoted
  | trailing token => ascii "unexpected token " ++ token.quoted ++ ascii " after formula"

/-- A cause with the token and the place that it points at. -/
structure SyntaxError where
  fault : SyntaxFault
  /-- The text of the offending token; empty at the end of the input. -/
  token : Text
  pos : SourcePos
  deriving DecidableEq

/-- The line, the cause and the column of an error. -/
def SyntaxError.text (e : SyntaxError) : Text :=
  Text.decimal e.pos.line.toNat ++ ascii ": ERROR: " ++ e.fault.text ++ ascii " at column " ++
    Text.decimal e.pos.column

end TwistLogic
