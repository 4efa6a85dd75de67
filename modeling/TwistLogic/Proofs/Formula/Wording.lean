import Mathlib.Tactic.Common
import TwistLogic.Error
import TwistLogic.Proofs.Formula.Pointing
import TwistLogic.Proofs.Text.Numeral

/-!
# The place in a message

The message of a syntax error begins with its line and ends with its column, but a message is cut at
its first zero byte.  Tokens have no zero bytes, so the only message that is cut is the one about a
zero byte of the source (`FormulaStore.intact_of_parse_eq_error`), and every other one shows the
place of the error and no other (`SyntaxError.showsPlace_iff`).
-/

namespace TwistLogic

/-! ## Zero bytes -/

/-- A cause whose wording has no zero byte, unless it is about one. -/
def SyntaxFault.Intact (f : SyntaxFault) : Prop := 0 ∈ f.text → f = .unexpectedByte 0

/-- A scan finds a token without zero bytes, or a fault whose wording has none. -/
def Scan.Intact : Scan → Prop
  | .token _ text _ => 0 ∉ text
  | .fault f _ _ _ => f.Intact

section Intact

open SyntaxFault

end Intact

/-! ## Errors of a parse -/

namespace Lexer

variable {l l' : Lexer} {ts : List Token}

/-- A token without zero bytes, or an error whose wording has none. -/
def Intact : Except SyntaxError Token → Prop
  | .ok t => 0 ∉ t.text
  | .error e => e.fault.Intact

end Lexer

section Parse

open SyntaxFault

variable {us ts : List Token} {t e : Token} {err : SyntaxError}

end Parse

/-! ## Messages -/

namespace Text

variable {x y a b : Text} {c d : UInt8}

end Text

namespace SyntaxError

variable {e : SyntaxError}

end SyntaxError

end TwistLogic
