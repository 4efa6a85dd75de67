import TwistLogic.Text.Numeral

/-!
# Test suites

A small test runner.  A test is a list of checks; a check that raises an error ends its test.  A
`TestRun` counts the checks of one test and writes the log of those that failed, and a `TestSuite`
adds up the tests.  An error counts as a failure but not as a check, so more checks can have
failed than there were.
-/

namespace TwistLogic

/-- One step of a test. -/
inductive Check where
  /-- A condition that has to be true. -/
  | holds (condition : Bool) (description : Text)
  /-- Two texts that have to be the same. -/
  | equal (actual expected description : Text)
  /-- An error, which ends the test. -/
  | raise (message : Text)
  deriving DecidableEq

/-- How many checks there were and how many failures. -/
structure CheckCounts where
  total : Nat
  failed : Nat
  deriving DecidableEq

/-- One more check. -/
def CheckCounts.count (c : CheckCounts) (passed : Bool) : CheckCounts :=
  { total := c.total + 1, failed := if passed then c.failed else c.failed + 1 }

/-- A test under way. -/
structure TestRun where
  counts : CheckCounts
  /-- The counts after each check, the latest first. -/
  history : List CheckCounts
  log : Text
  deriving DecidableEq

namespace TestRun

/-- A test of which nothing has been run. -/
def start : TestRun := { counts := ⟨0, 0⟩, history := [], log := [] }

/-- Records the outcome of a check; a failure is written down. -/
def record (r : TestRun) (passed : Bool) (complaint : Text) : TestRun :=
  let counts := r.counts.count passed
  { counts, history := counts :: r.history, log := if passed then r.log else r.log ++ complaint }

/-- The line about a check that failed. -/
def failLine (description : Text) : Text := ascii "  FAIL: " ++ description ++ ascii "\n"

/-- The lines about two texts that should be the same. -/
def differenceLines (actual expected : Text) : Text :=
  ascii "    expected: " ++ expected ++ ascii "\n" ++
    ascii "    actual:   " ++ actual ++ ascii "\n"

/-- Runs checks up to the first error. -/
def run (r : TestRun) : List Check → TestRun
  | [] => r
  | .holds condition description :: cs => (r.record condition (failLine description)).run cs
  | .equal actual expected description :: cs =>
    (r.record (actual == expected)
      (failLine description ++ differenceLines actual expected)).run cs
  | .raise message :: _ =>
    { r with
      counts := { r.counts with failed := r.counts.failed + 1 }
      log := r.log ++ ascii "  EXCEPTION: " ++ message.untilZero ++ ascii "\n" }

end TestRun

/-- Tests that were run. -/
structure TestSuite where
  testsRun : Nat
  testsFailed : Nat
  counts : CheckCounts
  log : Text
  deriving DecidableEq

namespace TestSuite

/-- A suite of which nothing has been run. -/
def start : TestSuite := { testsRun := 0, testsFailed := 0, counts := ⟨0, 0⟩, log := [] }

/-- Adds a test that was run under a name. -/
def add (s : TestSuite) (name : Text) (r : TestRun) : TestSuite :=
  let passed := r.counts.failed == 0
  let closing :=
    if passed then ascii "  OK (" ++ Text.decimal r.counts.total ++ ascii " checks)\n" else []
  { testsRun := s.testsRun + 1
    testsFailed := if passed then s.testsFailed else s.testsFailed + 1
    counts := ⟨s.counts.total + r.counts.total, s.counts.failed + r.counts.failed⟩
    log := s.log ++ ascii "TEST: " ++ name ++ ascii "\n" ++ r.log ++ closing }

/-- Runs a test under a name. -/
def run (s : TestSuite) (name : Text) (checks : List Check) : TestSuite :=
  s.add name (TestRun.start.run checks)

/-- The number of checks less the number of failures. -/
def checksPassed (s : TestSuite) : Int := (s.counts.total : Int) - s.counts.failed

/-- The exit code of a suite: zero if no test failed. -/
def exitCode (s : TestSuite) : Nat := if s.testsFailed = 0 then 0 else 1

/-- The counts of a suite and its verdict. -/
def summary (s : TestSuite) : Text :=
  ascii "\n=== Test Summary ===\n" ++
    ascii "Tests:  " ++ Text.decimal s.testsRun ++ ascii " run, " ++
    Text.decimal (s.testsRun - s.testsFailed) ++ ascii " passed, " ++
    Text.decimal s.testsFailed ++ ascii " failed\n" ++
    ascii "Checks: " ++ Text.decimal s.counts.total ++ ascii " total, " ++
    Text.signedDecimal s.checksPassed ++ ascii " passed, " ++
    Text.decimal s.counts.failed ++ ascii " failed\n" ++
    if s.testsFailed = 0 then ascii "ALL TESTS PASSED\n" else ascii "SOME TESTS FAILED\n"

end TestSuite

end TwistLogic
