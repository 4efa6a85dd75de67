import TwistLogic.Algebra.Certificate
import TwistLogic.Algebra.Chain
import TwistLogic.CommandLine.Options
import TwistLogic.CommandLine.Report
import TwistLogic.Formula.Parser

/-!
# Running a command line

`CommandLine.execute` is the whole program as a function: the arguments and the files in, the exit
code and the two outputs out.  A line of input that is no formula is reported and does not stop
the lines behind it.

What the program takes from elsewhere are its `Surroundings`: the room for tables, the solver that
certifies algebras, and the built-in tests.
-/

namespace TwistLogic.CommandLine

/-- What a run leaves behind. -/
structure Outcome where
  exitCode : Nat
  stdout : Text
  stderr : Text
  deriving DecidableEq

/-- What the program finds where it runs. -/
structure Surroundings where
  /-- How many cells a table of an algebra can have. -/
  cells : Nat
  /-- The certificate that the solver gives an algebra. -/
  certify : ResiduatedLattice → Certificate
  /-- The outcome of the built-in tests on a number of threads. -/
  selfTest : Nat → Outcome

/-- Surroundings with room for tables, without tests, and with a solver that decides nothing. -/
def Surroundings.bare (cells : Nat) : Surroundings :=
  { cells, certify := fun _ => .undecided, selfTest := fun _ => ⟨0, [], []⟩ }

/-- The contents of the files that can be read, by path. -/
abbrev Files := Text → Option Text

/-- The name under which the program is called. -/
def programName : Text := ascii "plts_check"

/-- The lines of a file.  A path ends at its first zero byte. -/
def readLines (files : Files) (path : Text) : Except Error (List Text) :=
  match files path.untilZero with
  | some content => .ok content.lines
  | none => .error (.unreadableFile path)

/-! ### Lines of input -/

/-- What was printed so far, and the formulas that were read. -/
structure Session where
  store : FormulaStore
  stdout : Text
  stderr : Text
  failed : Bool

namespace Session

/-- A session that has printed some text. -/
def start (stdout : Text) : Session := { store := .initial, stdout, stderr := [], failed := false }

/-- The session after a line that was refused. -/
def complain (s : Session) (e : Error) : Session :=
  { s with stderr := s.stderr ++ e.message ++ ascii "\n", failed := true }

/-- The session after the report on an accepted line. -/
def print (s : Session) (t : Text) : Session := { s with stdout := s.stdout ++ t }

/-- Reads the formula of line `n`, which has no comment, and reports on it. -/
def handleFormula (ts : TwistStructure) (stats : Bool) (s : Session) (n : Nat) (content : Text) :
    Session :=
  match s.store.parse content (UInt32.ofNat n) with
  | (.error e, store) => { s with store }.complain (.parse e)
  | (.ok id, store) =>
    let s := { s with store }.print (Text.decimal (UInt32.ofNat n).toNat ++ ascii ": ok\n")
    match Report.formula store ts stats id with
    | .error e => s.complain (.evaluation e)
    | .ok report => s.print report

/-- Handles a line of input with its number.  Blank lines and comments are passed over. -/
def handleLine (ts : TwistStructure) (stats : Bool) (s : Session) (line : Text × Nat) : Session :=
  let content := line.1.stripComment
  if content.isEmpty then s else s.handleFormula ts stats line.2 content

/-- Handles all lines of input, numbered from one. -/
def handleLines (ts : TwistStructure) (stats : Bool) (s : Session) (lines : List Text) : Session :=
  (lines.zipIdx 1).foldl (handleLine ts stats) s

/-- What the session leaves behind. -/
def outcome (s : Session) : Outcome :=
  { exitCode := if s.failed then 1 else 0, stdout := s.stdout, stderr := s.stderr }

end Session

/-! ### The program -/

/-- Whether an input is the path of a file. -/
def isPath (input : Text) : Bool := (ascii ".txt").isSuffixOf input

/-- The lines of an input: those of a file, or the input itself. -/
def inputLines (files : Files) (input : Text) : Except Error (List Text) :=
  if isPath input then readLines files input else .ok [input]

/-- The twist structure over the algebra with a name, if its tables have at most the given number of
cells. -/
def twistOf (cells : Nat) (spec : Text) : Except AlgebraError TwistStructure := do
  TwistStructure.generate (some (← Chain.ofSpecWithin cells spec))

/-- The text about a certificate. -/
def certificateText (name : Text) (c : Certificate) : Text :=
  ascii "Z3 certificate for " ++ name ++ ascii ": " ++
    (if c.ok then ascii "all laws hold" else ascii "FAILED") ++ ascii "\n" ++ c.text

/-- A session that has reported on the certificate of an algebra. -/
def Session.certify (s : Session) (name : Text) (c : Certificate) : Session :=
  { s.print (certificateText name c) with failed := !c.ok }

/-- The outcome of an error that ends the program. -/
def refusal (stdout : Text) (e : Error) : Outcome :=
  { exitCode := 1, stdout
    stderr := ascii "ERROR: " ++ e.message ++ ascii "\n" ++ Report.usage programName }

/-- Does what the options ask for with a twist structure, after some text was printed. -/
def runWith (env : Surroundings) (files : Files) (o : Options) (ts : TwistStructure)
    (printed : Text) : Outcome :=
  let s := Session.start printed
  let s := if o.tables then s.print (Report.algebra o.algebra ts) else s
  let s := if o.certify then s.certify o.algebra (env.certify ts.base) else s
  if o.input.isEmpty then s.outcome
  else
    match inputLines files o.input with
    | .error e =>
      { exitCode := 1, stdout := s.stdout, stderr := ascii "ERROR: " ++ e.message ++ ascii "\n" }
    | .ok lines => (s.handleLines ts o.stats lines).outcome

/-- Does what the options ask for. -/
def run (env : Surroundings) (files : Files) (o : Options) : Outcome :=
  if o.selftest then env.selfTest o.threads
  else
    let printed := if o.legend then Report.legend else []
    match twistOf env.cells o.algebra with
    | .error e => refusal printed (.algebra e)
    | .ok ts => runWith env files o ts printed

/-- The whole program. -/
def execute (env : Surroundings) (args : List Text) (files : Files) : Outcome :=
  match Options.parse args with
  | .error e => refusal [] (.options e)
  | .ok o =>
    if o.help then { exitCode := 0, stdout := [], stderr := Report.usage programName }
    else run env files o

/-- The file that a command line reads, if it reads one. -/
def fileRead? (args : List Text) : Option Text :=
  match Options.parse args with
  | .ok o => if isPath o.input then some o.input else none
  | .error _ => none

end TwistLogic.CommandLine
