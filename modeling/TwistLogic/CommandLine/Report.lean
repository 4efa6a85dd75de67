import TwistLogic.Formula.Reach
import TwistLogic.Model.Evaluator

/-!
# Reports

The texts that the command line prints: the usage, the legend of the formula language, the tables
of an algebra, and the report about one formula.
-/

namespace TwistLogic.Report

/-- Lines, each with the newline that ends it. -/
def unlines (ls : List Text) : Text := ls.flatMap fun l => l ++ ascii "\n"

/-! ### Fixed texts -/

/-- How the program is called. -/
def usage (program : Text) : Text :=
  unlines [
    ascii "Usage: " ++ program ++ ascii " [OPTIONS] <formula | input.txt>",
    ascii "       " ++ program ++ ascii " --selftest",
    [],
    ascii "Paraconsistent twist-structure semantics engine.",
    [],
    ascii "Options:",
    ascii "  <formula> | <input.txt>  Formula, or file with one formula per line",
    ascii "  --algebra A, -a A  Base algebra: boolean (default), goedel:N, lukasiewicz:N",
    ascii "  --tables      Print the base algebra and its twist structure tables",
    ascii "  --certify     Re-check the algebra laws with Z3",
    ascii "  --legend      Print the formula syntax legend",
    ascii "  --stats       Show formula and evaluator statistics",
    ascii "  --selftest    Run built-in tests",
    ascii "  --threads N, -j N  OpenMP threads for the --selftest validity checks (0 = auto)",
    ascii "  --help, -h    Show this message",
    [],
    ascii "Input format:",
    ascii "  - One formula per line",
    ascii "  - Empty lines and lines starting with # are ignored",
    ascii "  - Inline comments: everything after # is ignored"]

/-- The operators of the formula language and their values. -/
def legend : Text :=
  unlines [
    ascii "Symbol legend",
    ascii "  ~A           negation             (t, f) -> (f, t)",
    ascii "  A & B        weak meet            (t1 ^ t2, f1 v f2)",
    ascii "  A | B        weak join            (t1 v t2, f1 ^ f2)",
    ascii "  A => B       residuated impl.     (t1 -> t2, t1 * f2)",
    ascii "  A -> B       material impl.       ~A | B",
    ascii "  A <-> B      material equiv.      (A -> B) & (B -> A)",
    ascii "  <>_a A, <a>A diamond              join of (weight & A) over a-successors",
    ascii "  []_a A, [a]A box                  meet of (weight => A) over a-successors",
    ascii "  1, TOP       absolute true        (top, bottom)",
    ascii "  0, BOT       absolute false       (bottom, top)",
    [],
    ascii "Precedence (tightest first): ~  []_a <>_a  &  |  =>  ->  <->",
    ascii "A formula is valid in a model iff it is absolute true at every world."]

/-! ### Tables -/

/-- The width of a column for some labels: one more than the longest of them. -/
def columnWidth (labels : List Text) : Nat := labels.foldl (fun w l => max w l.length) 1 + 1

/-- One line of a table, its cells padded to a width. -/
def tableLine (width : Nat) (cells : List Text) : Text :=
  ascii "    " ++ cells.flatMap (·.pad width)

/-- A table with a title, a line of labels, and a labelled line for every row. -/
def labelledTable (title : Text) (labels : List Text) (rows : List (List Text)) : Text :=
  let width := columnWidth labels
  unlines
    ((ascii "  " ++ title) :: tableLine width ([] :: labels) ::
      (labels.zip rows).map fun (label, row) => tableLine width (label :: row))

/-- The table of an operation on the base algebra. -/
def baseTable (r : ResiduatedLattice) (title : Text) (op : ElementId → ElementId → ElementId) :
    Text :=
  let elements := List.range r.size
  labelledTable title r.lattice.names.toList
    (elements.map fun a => elements.map fun b => r.name (op a b))

/-- The table of an operation on a twist structure. -/
def twistTable (ts : TwistStructure) (op : TwistOp) : Text :=
  let elements := ts.elements.toList
  labelledTable op.name (elements.map ts.text)
    (elements.map fun x => elements.map fun y => ts.text (ts.apply op x y))

/-- One covering pair. -/
def coverText (l : FiniteLattice) (p : ElementId × ElementId) : Text :=
  ascii " " ++ l.name p.1 ++ ascii "<" ++ l.name p.2

/-- The line about the negation of an element. -/
def negationLine (ts : TwistStructure) (x : TwistElement) : Text :=
  ascii "    ~" ++ ts.text x ++ ascii " = " ++ ts.text (ts.negation x)

/-- Everything about an algebra and its twist structure. -/
def algebra (name : Text) (ts : TwistStructure) : Text :=
  let r := ts.base
  unlines [
      ascii "Algebra " ++ name ++ ascii " (" ++ Text.decimal r.size ++ ascii " elements, " ++
        Text.decimal ts.size ++ ascii " twist elements)",
      ascii "  top: " ++ r.name r.top ++ ascii "   bottom: " ++ r.name r.bottom,
      ascii "  covers:" ++ r.lattice.covers.flatMap (coverText r.lattice)] ++
    baseTable r (ascii "tensor") r.tensor ++
    baseTable r (ascii "residuum") r.residuum ++
    unlines (ascii "  negation" :: ts.elements.toList.map (negationLine ts)) ++
    twistTable ts .meet ++ twistTable ts .join ++ twistTable ts .implication

/-! ### Formulas -/

/-- The model with one world, no values and no actions. -/
def bareModel (ts : TwistStructure) : Model :=
  { Model.empty ts with worlds := #[{ id := ascii "w", valuation := ∅, edges := ∅ }], revision := 1 }

/-- The value of a formula in the bare model, and what finding it took. -/
def closedValue (s : FormulaStore) (ts : TwistStructure) (id : FormulaId) :
    Except EvalError TwistElement × EvalStats :=
  let m := bareModel ts
  let (x, ev) := (Evaluator.start m true).ask (Evaluator.evaluate s m id (ascii "w"))
  (x, ev.stats)

/-- The lines about the value of a formula without atoms and modalities. -/
def valueLines (s : FormulaStore) (ts : TwistStructure) (stats : Bool) (id : FormulaId) :
    Except EvalError (List Text) :=
  match closedValue s ts id with
  | (.error e, _) => .error e
  | (.ok x, counts) =>
    let verdict := if x = ts.absoluteTrue then ascii "  (valid)" else []
    .ok ((ascii "  value:       " ++ ts.text x ++ verdict) ::
      if stats then
        [ascii "  Stats: " ++ Text.decimal counts.evaluations ++ ascii " evaluations, " ++
          Text.decimal counts.cacheHits ++ ascii " cache hits"]
      else [])

/-- The lines about the names in a formula and its depth. -/
def formulaLines (φ : Formula) (atoms actions : List Text) : List Text :=
  [ascii "  formula:     " ++ φ.text,
    ascii "  atoms:       " ++ Text.joined atoms (ascii ", "),
    ascii "  actions:     " ++ Text.joined actions (ascii ", "),
    ascii "  modal depth: " ++ Text.decimal φ.depth]

/-- The line about the size of a formula and of the store. -/
def sizeLine (s : FormulaStore) (φ : Formula) : Text :=
  ascii "  Stats: " ++ Text.decimal φ.size ++ ascii " nodes, " ++ Text.decimal s.size ++
    ascii " interned"

/-- Everything about a stored formula. -/
def formula (s : FormulaStore) (ts : TwistStructure) (stats : Bool) (id : FormulaId) :
    Except EvalError Text := do
  let some φ := s.tree? id | throw .danglingFormula
  let some atoms := s.atoms? id | throw .danglingFormula
  let some actions := s.actions? id | throw .danglingFormula
  let value ←
    if atoms.isEmpty && actions.isEmpty then valueLines s ts stats id else pure []
  return unlines
    (formulaLines φ atoms actions ++ value ++ if stats then [sizeLine s φ] else [])

end TwistLogic.Report
