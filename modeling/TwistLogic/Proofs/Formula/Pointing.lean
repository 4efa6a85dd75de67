import Mathlib.Tactic.Common
import TwistLogic.Proofs.Formula.Tiling
import TwistLogic.Proofs.Formula.ViablePrefix

/-!
# What errors point at

An error points at a place that is found by counting in the source, and its token is part of the
source from there on.  There is one exception: at the end of the input no byte stands, and a label
that is not closed there is reported with a zero byte (`SyntaxError.OpenAtEnd`).

A fault of a single token aims at the stretch in which it was scanned (`SyntaxFault.Aims`), and the
walk adds what it has read before.  All other errors take their place and their token from tokens
that were read, or from the end of the input.
-/

namespace TwistLogic

/-! ## Faults of single tokens -/

namespace SyntaxFault

/-- The bytes of the source that a cause quotes. -/
def quoted : SyntaxFault → Text
  | notAConstant word => word
  | brokenArrow found _ => found
  | unclosedLabel _ action => action
  | unexpectedByte c => [c]
  | missingOperandAfter token | missingOperandBefore token | trailing token => token
  | expectedClose _ found => found
  | missingLabel _ | emptyLabel _ | emptyFormula | unmatchedOpen | unmatchedClose => []

end SyntaxFault

section Aims

open SyntaxFault

end Aims

/-! ## Errors of a walk -/

namespace Lexer

variable {l l' : Lexer} {line : UInt32} {read : Text} {e : SyntaxError}

end Lexer

/-! ## Errors of a parse -/

section Parse

variable {source : Text} {line : UInt32} {t e : Token} {ts us : List Token} {err : SyntaxError}

end Parse

end TwistLogic
