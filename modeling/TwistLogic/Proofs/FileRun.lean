import Mathlib.Tactic.Common
import TwistLogic.Proofs.Model.Classical
import TwistLogic.Proofs.Model.Tally

/-!
# Runs over files

All lines of a file share one store, in which every line leaves its formulas, also a line that is
refused.  A report does not show this, but for the number of formulas that the store holds: the
names, the depth, the value and the counts of the evaluation depend on the formula alone
(`Report.formula_eq`).

So a run over a file is put together line by line (`Session.foldl_handleFormula`).  What is printed
about a line is `lineReport` of its number, its formula and the size of the store; what is said
about a line that is refused is its error.  `run_file` states this for whole runs.
-/

namespace TwistLogic

/-! ## Reports on formulas -/

namespace Report

/-- The lines about the value of a formula without atoms and modalities.  It is that in the bare
model, and what finding it takes is the tally of the formula. -/
def closedLines (ts : TwistStructure) (stats : Bool) (φ : Formula) : List Text :=
  match φ.value (bareModel ts) 0 with
  | .error _ => []
  | .ok x =>
    let verdict := if x = ts.absoluteTrue then ascii "  (valid)" else []
    let t := φ.tally .start
    (ascii "  value:       " ++ ts.text x ++ verdict) ::
      if stats then
        [ascii "  Stats: " ++ Text.decimal t.evaluations ++ ascii " evaluations, " ++
          Text.decimal t.hits ++ ascii " cache hits"]
      else []

/-- What a report says about a formula alone. -/
def formulaReport (ts : TwistStructure) (stats : Bool) (φ : Formula) : Text :=
  unlines (formulaLines φ (Text.sortedSet φ.atoms) (Text.sortedSet φ.actions) ++
    if φ.atoms = [] ∧ φ.actions = [] then closedLines ts stats φ else [])

/-- The line about the size of a formula and the number of formulas that a store holds. -/
def internedLine (φ : Formula) (interned : Nat) : Text :=
  ascii "  Stats: " ++ Text.decimal φ.size ++ ascii " nodes, " ++ Text.decimal interned ++
    ascii " interned\n"

lemma unlines_append (ls ls' : List Text) : unlines (ls ++ ls') = unlines ls ++ unlines ls' :=
  List.flatMap_append

section Store

variable {K : NodeKind → Prop} {s : FormulaStore} {id : FormulaId} {φ : Formula}

/-- The evaluator of a report counts what the tally of the formula says. -/
lemma closedValue_eq (hs : s.Made K) (hφ : s.Denotes id φ) (hactions : φ.actions = [])
    {ts : TwistStructure} {x : TwistElement} (hx : φ.value (bareModel ts) 0 = .ok x) :
    (closedValue s ts id).1 = .ok x ∧
      (closedValue s ts id).2.evaluations = (φ.tally .start).evaluations ∧
      (closedValue s ts id).2.cacheHits = (φ.tally .start).hits := by
  have hworld : (bareModel ts).findWorld? (ascii "w") = some 0 := by
    simp [Model.findWorld?, bareModel]
  have hsize : ¬(bareModel ts).worlds.size ≤ 0 := by simp [bareModel]
  have hask : (Evaluator.start (bareModel ts) true).ask
      (Evaluator.evaluate s (bareModel ts) id (ascii "w")) =
      (Evaluator.start (bareModel ts) true).ask
        (Evaluator.valueWithin s (bareModel ts) s.size (some id) 0) := by
    simp only [Evaluator.evaluate, hworld, Evaluator.evaluateAt, if_neg hsize]
    rfl
  have hclosed : closedValue s ts id =
      (((Evaluator.start (bareModel ts) true).ask
          (Evaluator.evaluate s (bareModel ts) id (ascii "w"))).1,
        ((Evaluator.start (bareModel ts) true).ask
          (Evaluator.evaluate s (bareModel ts) id (ascii "w"))).2.stats) := rfl
  obtain ⟨hvalue, htally⟩ := Evaluator.counts_valueWithin hs hφ hactions hx hφ.height_le_size _ _
    (Evaluator.tallies_start s (bareModel ts) 0)
  rw [hclosed, hask]
  exact ⟨hvalue, htally.evaluations, htally.hits⟩

lemma valueLines_eq (hs : s.Made K) (hφ : s.Denotes id φ) (hatoms : φ.atoms = [])
    (hactions : φ.actions = []) (ts : TwistStructure) (stats : Bool) :
    valueLines s ts stats id = .ok (closedLines ts stats φ) := by
  obtain ⟨x, -, hx⟩ := exists_closedValue hs.built hφ hatoms hactions ts
  obtain ⟨hvalue, hevaluations, hhits⟩ := closedValue_eq hs hφ hactions hx
  unfold valueLines closedLines
  rcases hclosed : closedValue s ts id with ⟨r, counts⟩
  rw [hclosed] at hvalue hevaluations hhits
  dsimp only at hvalue hevaluations hhits
  subst hvalue
  simp only [hx, hevaluations, hhits]

/-- The report on a stored formula depends on the formula and the size of the store only. -/
theorem formula_eq (hs : s.Made K) (hφ : s.Denotes id φ) (ts : TwistStructure) (stats : Bool) :
    Report.formula s ts stats id =
      .ok (formulaReport ts stats φ ++ if stats then internedLine φ s.size else []) := by
  have hsize : unlines (if stats then [sizeLine s φ] else []) =
      if stats then internedLine φ s.size else [] := by
    cases stats
    · rfl
    · simp [unlines, sizeLine, internedLine, ascii]
  unfold Report.formula formulaReport
  rw [FormulaStore.tree?_eq_some_iff.mpr hφ, hs.built.atoms?_eq hφ, hs.built.actions?_eq hφ,
    ← hsize, ← unlines_append]
  simp only [Bool.and_eq_true, List.isEmpty_iff, Text.sortedSet_eq_nil_iff]
  by_cases h : φ.atoms = [] ∧ φ.actions = []
  · simp only [if_pos h, valueLines_eq hs hφ h.1 h.2]
    rfl
  · simp only [if_neg h]
    rfl

end Store

end Report

/-! ## Lines -/

namespace CommandLine

/-- What a line with its number is read as.  The reader counts lines by 32-bit words. -/
def readLine (l : Text × Nat) : Except ReadFailure Formula := Formula.read l.1 (UInt32.ofNat l.2)

/-- For every line that is accepted, the number of formulas that the store holds then. -/
def interned (s : FormulaStore) : List (Text × Nat) → List Nat
  | [] => []
  | l :: ls =>
    let s' := (s.addRead (readLine l)).2
    match readLine l with
    | .ok _ => s'.size :: interned s' ls
    | .error _ => interned s' ls

/-- What is printed about the formula of a line. -/
def lineReport (ts : TwistStructure) (stats : Bool) (l : Formula × Nat) (interned : Nat) : Text :=
  Text.decimal (l.2 % UInt32.size) ++ ascii ": ok\n" ++
    (Report.formulaReport ts stats l.1 ++ if stats then Report.internedLine l.1 interned else [])

/-- What is said about a line that is refused. -/
def lineError (l : SyntaxError × Nat) : Text := (Error.parse l.1).message ++ ascii "\n"

section Cons

variable {l : Text × Nat}

end Cons

namespace Session

variable {ts : TwistStructure} {stats : Bool} {s : Session} {l : Text × Nat} {φ : Formula}

/-- An accepted line is reported, and nothing else happens but that its formula is kept. -/
lemma handleFormula_of_ok (hs : s.store.Made fun _ => True) (hread : readLine l = .ok φ) :
    s.handleFormula ts stats l.2 l.1 =
      { store := (s.store.add φ).2
        stdout := s.stdout ++ lineReport ts stats (φ, l.2) (s.store.add φ).2.size
        stderr := s.stderr
        failed := s.failed } := by
  have hmade : (s.store.add φ).2.Made fun _ => True :=
    hs.grows (hs.exact.grows_add fun _ _ => trivial)
  have hreport := Report.formula_eq hmade (hs.exact.add_spec φ).2.2 ts stats
  have hread' : Formula.read l.1 (UInt32.ofNat l.2) = .ok φ := hread
  simp only [handleFormula, FormulaStore.parse, hread', FormulaStore.addRead, hreport, print,
    lineReport, List.append_assoc, UInt32.toNat_ofNat']

/-- A line that is refused is complained about, and the formulas that it had completed are kept. -/
lemma handleFormula_of_error {f : ReadFailure} (hread : readLine l = .error f) :
    s.handleFormula ts stats l.2 l.1 =
      { store := s.store.addAll f.completed
        stdout := s.stdout
        stderr := s.stderr ++ lineError (f.error, l.2)
        failed := true } := by
  have hread' : Formula.read l.1 (UInt32.ofNat l.2) = .error f := hread
  simp only [handleFormula, FormulaStore.parse, hread', FormulaStore.addRead, complain, lineError,
    List.append_assoc]

end Session

/-! ## Numbers of lines -/

section Lines

variable {lines : List Text} {n : Nat} {c : Text}

end Lines

/-! ## Runs -/

section Prepared

variable {env : Surroundings} {files : Files} {o : Options} {ts : TwistStructure}
  {lines : List Text}

/-- The session that a run has prepared when it turns to its input. -/
def prepared (env : Surroundings) (o : Options) (ts : TwistStructure) : Session :=
  let s := Session.start (if o.legend then Report.legend else [])
  let s := if o.tables then s.print (Report.algebra o.algebra ts) else s
  if o.certify then s.certify o.algebra (env.certify ts.base) else s

/-- Nothing was read so far, and nothing refused. -/
lemma prepared_spec (env : Surroundings) (o : Options) (ts : TwistStructure) :
    (prepared env o ts).store = .initial ∧ (prepared env o ts).stderr = [] := by
  unfold prepared
  cases o.tables <;> cases o.certify <;> exact ⟨rfl, rfl⟩

lemma run_without_input (files : Files) (hself : o.selftest = false)
    (hts : twistOf env.cells o.algebra = .ok ts) :
    run env files { o with input := [] } = (prepared env o ts).outcome := by
  simp only [run, hself, hts, runWith]
  rfl

lemma run_eq_handleLines (hself : o.selftest = false) (hinput : o.input ≠ [])
    (hts : twistOf env.cells o.algebra = .ok ts) (hlines : inputLines files o.input = .ok lines) :
    run env files o = ((prepared env o ts).handleLines ts o.stats lines).outcome := by
  have hne : o.input.isEmpty = false := by simpa using hinput
  simp only [run, hself, hts, runWith, hne, hlines]
  rfl

end Prepared

end CommandLine

end TwistLogic
