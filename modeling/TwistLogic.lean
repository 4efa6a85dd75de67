import TwistLogic.Formula.Material
import TwistLogic.Workspace
import TwistLogic.CommandLine.FileTree
import TwistLogic.Main
import TwistLogic.Proofs.Formula.Interning
import TwistLogic.Proofs.Formula.Sharing
import TwistLogic.Proofs.Formula.Reach
import TwistLogic.Proofs.Formula.Material
import TwistLogic.Proofs.Formula.HashConsing
import TwistLogic.Proofs.Formula.Lexemes
import TwistLogic.Proofs.Formula.Printing
import TwistLogic.Proofs.Formula.Filling
import TwistLogic.Proofs.Model.Recall
import TwistLogic.Proofs.Model.Edit
import TwistLogic.Proofs.Model.Session
import TwistLogic.Proofs.Model.Storage
import TwistLogic.Proofs.Model.Integrity
import TwistLogic.Proofs.Algebra.Lattice
import TwistLogic.Proofs.Algebra.Construction
import TwistLogic.Proofs.Algebra.Residuated
import TwistLogic.Proofs.Algebra.Extension
import TwistLogic.Proofs.Algebra.Twist
import TwistLogic.Proofs.Algebra.Monotone
import TwistLogic.Proofs.Algebra.Implication
import TwistLogic.Proofs.Algebra.Bilattice
import TwistLogic.Proofs.Algebra.Chain
import TwistLogic.Proofs.Algebra.Presentation
import TwistLogic.Proofs.Algebra.Renaming
import TwistLogic.Proofs.Algebra.Equivalence
import TwistLogic.Proofs.Algebra.Covers
import TwistLogic.Proofs.Algebra.Completion
import TwistLogic.Proofs.Algebra.Guarded
import TwistLogic.Proofs.Model.Meaning
import TwistLogic.Proofs.Model.Locality
import TwistLogic.Proofs.Model.Bisimulation
import TwistLogic.Proofs.Model.Schedule
import TwistLogic.Proofs.Model.Verdict
import TwistLogic.Proofs.Model.Precheck
import TwistLogic.Proofs.Model.Description
import TwistLogic.Proofs.Model.Material
import TwistLogic.Proofs.Related
import TwistLogic.Proofs.Model.Parallel
import TwistLogic.Proofs.Model.Monotone
import TwistLogic.Proofs.Model.Classical
import TwistLogic.Proofs.Model.Guarded
import TwistLogic.Proofs.Model.Tally
import TwistLogic.Proofs.Workspace
import TwistLogic.Proofs.Formula.Grammar
import TwistLogic.Proofs.Formula.Reading
import TwistLogic.Proofs.Formula.RoundTrip
import TwistLogic.Proofs.Formula.Scanning
import TwistLogic.Proofs.Formula.Tiling
import TwistLogic.Proofs.Formula.ViablePrefix
import TwistLogic.Proofs.Model.Renaming
import TwistLogic.Proofs.Interchange
import TwistLogic.Proofs.Registry
import TwistLogic.Proofs.Isolation
import TwistLogic.Proofs.FileRun
import TwistLogic.Proofs.Formula.Pointing
import TwistLogic.Proofs.Formula.LexemeEnds
import TwistLogic.Proofs.Formula.Surroundings
import TwistLogic.Proofs.Formula.Continuation
import TwistLogic.Proofs.Formula.Stripping
import TwistLogic.Proofs.Text.Numeral
import TwistLogic.Proofs.Formula.Wording
import TwistLogic.Proofs.InputText
import TwistLogic.Proofs.Formula.Peeking
import TwistLogic.Proofs.Model.Normality
import TwistLogic.Proofs.Model.Duality
import TwistLogic.Proofs.Model.CallGraph
import TwistLogic.Proofs.Model.PackedMemory
import TwistLogic.Proofs.Model.Batch
import TwistLogic.Proofs.Model.Realisation
import TwistLogic.Proofs.Text.Integer
import TwistLogic.Proofs.Algebra.Linear
import TwistLogic.Proofs.Algebra.ChainSize
import TwistLogic.Proofs.Algebra.Fusion
import TwistLogic.Proofs.Formula.Descent
import TwistLogic.Proofs.Formula.Postorder
import TwistLogic.Proofs.Options
import TwistLogic.Proofs.TestSuite
import TwistLogic.Proofs.Algebra.Bounds
import TwistLogic.Proofs.Algebra.Indexing
import TwistLogic.Proofs.Algebra.LatticeLoops
import TwistLogic.Proofs.Formula.Traversal
