import TwistLogic.Error

/-!
# Command-line options

`Options.parse` reads the arguments from left to right.  Two options take the argument behind them
as their value; any other argument that begins with a dash has to be a known flag, and one that
does not is the input.  An argument ends at its first zero byte.
-/

namespace TwistLogic

/-- The options without a value. -/
inductive Flag where
  | selftest
  | legend
  | tables
  | certify
  | stats
  | help
  deriving DecidableEq

/-- The roles of an argument. -/
inductive Argument where
  | flag (f : Flag)
  /-- The next argument names the algebra. -/
  | algebra
  /-- The next argument is the thread count. -/
  | threads
  /-- A dash that begins no known option. -/
  | unknown
  | positional
  deriving DecidableEq

/-- The role of an argument in a position where no value is due. -/
def Argument.ofText (arg : Text) : Argument :=
  if arg = ascii "--selftest" then .flag .selftest
  else if arg = ascii "--legend" then .flag .legend
  else if arg = ascii "--tables" then .flag .tables
  else if arg = ascii "--certify" then .flag .certify
  else if arg = ascii "--stats" then .flag .stats
  else if arg = ascii "--help" || arg = ascii "-h" then .flag .help
  else if arg = ascii "--algebra" || arg = ascii "-a" then .algebra
  else if arg = ascii "--threads" || arg = ascii "-j" then .threads
  else if arg.head? = some (byte '-') then .unknown
  else .positional

/-- What the arguments ask for. -/
structure Options where
  /-- A formula, or the path of a file with one formula on each line. -/
  input : Text
  /-- The name of the base algebra. -/
  algebra : Text
  selftest : Bool
  legend : Bool
  tables : Bool
  certify : Bool
  stats : Bool
  help : Bool
  threads : Nat
  deriving DecidableEq

namespace Options

/-- What no argument at all asks for. -/
def none : Options :=
  { input := [], algebra := ascii "boolean", selftest := false, legend := false, tables := false,
    certify := false, stats := false, help := false, threads := 0 }

/-- The options with a flag set. -/
def set (o : Options) : Flag → Options
  | .selftest => { o with selftest := true }
  | .legend => { o with legend := true }
  | .tables => { o with tables := true }
  | .certify => { o with certify := true }
  | .stats => { o with stats := true }
  | .help => { o with help := true }

/-- A thread count: the number at the front of a text, which must not be negative. -/
def threadCount (value : Text) : Except OptionFault Nat :=
  match value.readInt32 with
  | .none => .error .missingThreads
  | some n => if n < 0 then .error .negativeThreads else .ok n.toNat

/-- Reads the arguments that are left. -/
def read (o : Options) : List Text → Except OptionFault Options
  | [] => .ok o
  | arg :: rest =>
    match Argument.ofText arg with
    | .flag f => (o.set f).read rest
    | .algebra =>
      match rest with
      | [] => .error .missingAlgebra
      | value :: rest => { o with algebra := value }.read rest
    | .threads =>
      match rest with
      | [] => .error .missingThreads
      | value :: rest =>
        match threadCount value with
        | .error e => .error e
        | .ok n => { o with threads := n }.read rest
    | .unknown => .error (.unknownOption arg)
    | .positional =>
      if o.input.isEmpty then { o with input := arg }.read rest else .error .severalInputs

/-- Whether there is anything to do. -/
def asksForSomething (o : Options) : Bool :=
  o.selftest || o.help || o.legend || o.tables || o.certify || !o.input.isEmpty

/-- What the arguments ask for, or why they are refused. -/
def parse (args : List Text) : Except OptionFault Options := do
  let o ← none.read (args.map Text.untilZero)
  if o.asksForSomething then return o else throw .noInput

end Options

end TwistLogic
