import TwistLogic.Formula.SyntaxError
import TwistLogic.Model.Evaluator

/-!
# Errors

Everything that the library refuses, in one type.  `Error.message` is the wording that a user sees;
it ends at the first zero byte of the names that it quotes.
-/

namespace TwistLogic

/-- Why a command line is refused. -/
inductive OptionFault where
  /-- The option that names the algebra is the last argument. -/
  | missingAlgebra
  /-- The thread count is missing or is no number. -/
  | missingThreads
  | negativeThreads
  | unknownOption (argument : Text)
  | severalInputs
  | noInput
  deriving DecidableEq

/-- The wording of a refused command line. -/
def OptionFault.text : OptionFault → Text
  | missingAlgebra =>
    ascii "--algebra requires an argument (boolean, goedel:N, lukasiewicz:N)"
  | missingThreads => ascii "--threads requires a number argument"
  | negativeThreads => ascii "--threads must be >= 0"
  | unknownOption argument => ascii "unknown option: " ++ argument
  | severalInputs => ascii "multiple inputs not supported"
  | noInput => ascii "no input specified (use --help for usage)"

/-- Everything that can be refused. -/
inductive Error where
  | algebra (e : AlgebraError)
  | mismatch (m : Mismatch)
  | unknownOperation
  | model (e : ModelError)
  | parse (e : SyntaxError)
  | evaluation (e : EvalError)
  | nullTwist (name : Text)
  | unknownTwist (name : Text)
  | unknownModel (name : Text)
  | unreadableFile (path : Text)
  | options (fault : OptionFault)
  deriving DecidableEq

namespace Error

/-- The full wording of an error. -/
def text : Error → Text
  | algebra e => e.text
  | mismatch m => m.text
  | unknownOperation => ascii "unknown twist operation"
  | model e => e.text
  | parse e => e.text
  | evaluation e => e.text
  | nullTwist name => ascii "twist structure " ++ name.quoted ++ ascii " is null"
  | unknownTwist name => ascii "unknown twist structure " ++ name.quoted
  | unknownModel name => ascii "unknown model " ++ name.quoted
  | unreadableFile path => ascii "cannot open file: " ++ path
  | options fault => fault.text

/-- The wording that a user sees. -/
def message (e : Error) : Text := e.text.untilZero

end Error

end TwistLogic
