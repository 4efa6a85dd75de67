import Mathlib.Data.List.Induction
import Mathlib.Tactic.Common
import TwistLogic.TestSuite

/-!
# What a test suite counts

A test makes its checks one after the other until one raises an error (`TestRun.made`).  Up to there
no more checks have failed than were made (`TestRun.failed_le_total_of_mem_history`).  A suite has
counted the checks that its tests have made, those of them that failed, and one failure more for
each error (`TestSuite.Accounts`).  This holds at the start, and running one more test preserves it
(`Accounts.run`), so it holds after any tests (`accounts_runAll`).

The verdict is right: the exit code is zero exactly if all checks were made and passed.  But the
number of failures is at most that of the checks only as long as there are no more errors than
checks that passed, and the number that the summary gives for those is too small by one for each
error (`TestSuite.runAll_spec`).
-/

namespace TwistLogic

namespace Check

/-- The check is made and has the outcome that it should have. -/
def passes : Check → Bool
  | holds condition _ => condition
  | equal actual expected _ => actual == expected
  | raise _ => false

def raises : Check → Bool
  | raise _ => true
  | holds _ _ | equal _ _ _ => false

end Check

/-- Counting one more check keeps the failures within the checks. -/
lemma CheckCounts.failed_le_total_count {counts : CheckCounts} (h : counts.failed ≤ counts.total)
    (passed : Bool) : (counts.count passed).failed ≤ (counts.count passed).total := by
  cases passed with
  | true => exact Nat.le_succ_of_le h
  | false => exact Nat.succ_le_succ h

namespace TestRun

/-- The checks that are made, which are those in front of the first error. -/
def made (cs : List Check) : List Check := cs.takeWhile fun c => !c.raises

/-- An error ends the test. -/
def throws (cs : List Check) : Bool := cs.any Check.raises

/-- A check fails or an error ends the test. -/
def fails (cs : List Check) : Bool := (made cs).any (fun c => !c.passes) || throws cs

/-- How many failures a test counts. -/
def failures (cs : List Check) : Nat :=
  (made cs).countP (fun c => !c.passes) + if throws cs then 1 else 0

variable {r : TestRun} {c : Check} {cs : List Check}

lemma made_cons (hc : c.raises = false) : made (c :: cs) = c :: made cs := by
  rw [made, List.takeWhile_cons_of_pos (by simp [hc]), made]

lemma failures_cons (hc : c.raises = false) :
    failures (c :: cs) = (if c.passes then 0 else 1) + failures cs := by
  rw [failures, made_cons hc, List.countP_cons, throws, List.any_cons, hc, Bool.false_or, failures,
    throws]
  cases c.passes with
  | true => simp
  | false =>
    simp only [Bool.not_false, if_true, Bool.false_eq_true, if_false]
    omega

/-! ## One test -/

/-- A check that raises nothing is recorded, -/
lemma run_cons (r : TestRun) (cs : List Check) (hc : c.raises = false) :
    ∃ complaint, r.run (c :: cs) = (r.record c.passes complaint).run cs := by
  cases c with
  | holds | equal => exact ⟨_, rfl⟩
  | raise => cases hc

/-- and an error is the end. -/
lemma counts_run_cons_of_raises (r : TestRun) (cs : List Check) (hc : c.raises = true) :
    (r.run (c :: cs)).counts = ⟨r.counts.total, r.counts.failed + 1⟩ ∧
      made (c :: cs) = [] ∧ failures (c :: cs) = 1 := by
  cases c with
  | holds | equal => cases hc
  | raise message => exact ⟨rfl, rfl, rfl⟩

/-- A test counts the checks that it makes and its failures. -/
lemma counts_run :
    (r.run cs).counts = ⟨r.counts.total + (made cs).length, r.counts.failed + failures cs⟩ := by
  induction cs generalizing r with
  | nil => rfl
  | cons c cs ih =>
    cases hc : c.raises with
    | true =>
      obtain ⟨hcounts, hmade, hfailures⟩ := counts_run_cons_of_raises r cs hc
      rw [hcounts, hmade, hfailures]
      rfl
    | false =>
      obtain ⟨complaint, hrun⟩ := run_cons r cs hc
      rw [hrun, ih, made_cons hc, failures_cons hc, List.length_cons]
      cases hpasses : c.passes <;> simp [record, CheckCounts.count] <;> omega

lemma fails_eq_false_iff :
    fails cs = false ↔ (∀ c ∈ made cs, c.passes = true) ∧ throws cs = false := by
  simp [fails]

/-- A test counts a failure exactly if it fails. -/
lemma failures_eq_zero_iff : failures cs = 0 ↔ fails cs = false := by
  rw [failures, fails_eq_false_iff, Nat.add_eq_zero_iff, List.countP_eq_zero]
  cases throws cs <;> simp

/-- Running checks keeps all counts sound, -/
lemma failed_le_total_run (hcounts : r.counts.failed ≤ r.counts.total)
    (hhistory : ∀ c ∈ r.history, c.failed ≤ c.total) :
    ∀ c ∈ (r.run cs).history, c.failed ≤ c.total := by
  induction cs generalizing r with
  | nil => exact hhistory
  | cons c cs ih =>
    cases hc : c.raises with
    | true =>
      cases c with
      | holds | equal => cases hc
      | raise => exact hhistory
    | false =>
      obtain ⟨complaint, hrun⟩ := run_cons r cs hc
      have hnext := CheckCounts.failed_le_total_count hcounts c.passes
      rw [hrun]
      exact ih hnext (List.forall_mem_cons.mpr ⟨hnext, hhistory⟩)

/-- so while a test is being run, no more checks have failed than were made. -/
theorem failed_le_total_of_mem_history (cs : List Check) :
    ∀ c ∈ (start.run cs).history, c.failed ≤ c.total :=
  failed_le_total_run (Nat.le_refl _) nofun

end TestRun

namespace TestSuite

/-! ## Any tests -/

/-- Runs tests under their names. -/
def runAll (tests : List (Text × List Check)) : TestSuite :=
  tests.foldl (fun s t => s.run t.1 t.2) start

/-- The checks that were made, over all tests. -/
def checks (tests : List (Text × List Check)) : List Check :=
  tests.flatMap fun t => TestRun.made t.2

/-- The number of tests that an error has ended. -/
def errors (tests : List (Text × List Check)) : Nat :=
  tests.countP fun t => TestRun.throws t.2

/-- A suite has counted its tests, those that failed, the checks that were made, and those of them
that failed together with the errors. -/
structure Accounts (s : TestSuite) (tests : List (Text × List Check)) : Prop where
  testsRun_eq : s.testsRun = tests.length
  testsFailed_eq : s.testsFailed = tests.countP fun t => TestRun.fails t.2
  total_eq : s.counts.total = (checks tests).length
  failed_eq : s.counts.failed = (checks tests).countP (fun c => !c.passes) + errors tests

variable {s : TestSuite} {tests : List (Text × List Check)}

lemma accounts_start : start.Accounts [] := ⟨rfl, rfl, rfl, rfl⟩

/-- One more test is counted. -/
lemma Accounts.run (h : s.Accounts tests) (t : Text × List Check) :
    (s.run t.1 t.2).Accounts (tests ++ [t]) := by
  have hcounts : (TestRun.start.run t.2).counts =
      ⟨(TestRun.made t.2).length, TestRun.failures t.2⟩ := by
    rw [TestRun.counts_run]
    simp [TestRun.start]
  constructor
  case testsRun_eq => simp [TestSuite.run, add, h.testsRun_eq]
  case testsFailed_eq =>
    rw [List.countP_append, ← h.testsFailed_eq, List.countP_singleton]
    simp only [TestSuite.run, add, hcounts, beq_iff_eq, TestRun.failures_eq_zero_iff]
    cases TestRun.fails t.2 <;> rfl
  case total_eq => simp [TestSuite.run, add, hcounts, checks, h.total_eq]
  case failed_eq =>
    simp only [TestSuite.run, add, hcounts, h.failed_eq, checks, errors, TestRun.failures,
      List.flatMap_append, List.flatMap_singleton, List.countP_append, List.countP_singleton]
    omega

/-- After any tests, a suite has counted them. -/
theorem accounts_runAll (tests : List (Text × List Check)) : (runAll tests).Accounts tests := by
  induction tests using List.reverseRecOn with
  | nil => exact accounts_start
  | append_singleton tests t ih =>
    rw [runAll, List.foldl_append]
    exact ih.run t

/-- After any tests, the two numbers of checks in the summary add up to the total, and the exit code
is zero exactly if no check has failed and no error was raised.  For each error the number of checks
that passed is too small by one, so it is negative if there are more errors than such checks. -/
theorem runAll_spec (tests : List (Text × List Check)) :
    (runAll tests).Accounts tests ∧
    (runAll tests).checksPassed + (runAll tests).counts.failed = (runAll tests).counts.total ∧
    (runAll tests).checksPassed = (checks tests).countP Check.passes - (errors tests : Int) ∧
    ((runAll tests).counts.failed ≤ (runAll tests).counts.total ↔
      errors tests ≤ (checks tests).countP Check.passes) ∧
    ((runAll tests).exitCode = 0 ↔
      ∀ t ∈ tests, (∀ c ∈ TestRun.made t.2, c.passes = true) ∧ TestRun.throws t.2 = false) := by
  have h := accounts_runAll tests
  have hlength : (checks tests).length =
      (checks tests).countP Check.passes + (checks tests).countP (fun c => !c.passes) := by
    rw [List.length_eq_countP_add_countP Check.passes]
    simp
  have htotal := h.total_eq.trans hlength
  have hfailed := h.failed_eq
  refine ⟨h, ?_, ?_, ?_, ?_⟩
  · rw [checksPassed]
    omega
  · rw [checksPassed]
    omega
  · omega
  · rw [exitCode, h.testsFailed_eq, ite_eq_left_iff]
    simp only [Nat.one_ne_zero, imp_false, not_not, List.countP_eq_zero, Bool.not_eq_true,
      TestRun.fails_eq_false_iff]

/-- A test that only raises an error counts one failure and no check. -/
theorem more_failures_than_checks :
    let s := start.run (ascii "t") [.raise (ascii "boom")]
    s.counts = ⟨0, 1⟩ ∧ s.checksPassed = -1 ∧
    s.summary = ascii "\n=== Test Summary ===\nTests:  1 run, 0 passed, 1 failed\n" ++
      ascii "Checks: 0 total, -1 passed, 1 failed\nSOME TESTS FAILED\n" := by
  decide +kernel

end TestSuite

end TwistLogic
