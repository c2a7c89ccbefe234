import TypeCalculus.CommandLine.FileTree
import TypeCalculus.Main
import TypeCalculus.Runner.Metric
import TypeCalculus.Proofs.Assignable.Comparison
import TypeCalculus.Proofs.Ty.Identity
import TypeCalculus.Proofs.Assignable.Weight
import TypeCalculus.Proofs.Assignable.DepthLimit
import TypeCalculus.Proofs.Checker.Adaptive
import TypeCalculus.Proofs.Checker.Memo
import TypeCalculus.Proofs.Ty.NormalForm
import TypeCalculus.Proofs.Ty.Intersection
import TypeCalculus.Proofs.Substitute
import TypeCalculus.Proofs.Assignable.Captures
import TypeCalculus.Proofs.Evaluate.NormalForm
import TypeCalculus.Proofs.Checker.NormalForm
import TypeCalculus.Proofs.Hash.Framing
import TypeCalculus.Proofs.Hash.Types
import TypeCalculus.Proofs.Hash.Lines
import TypeCalculus.Proofs.Hash.Declarations
import TypeCalculus.Proofs.Document.NormalForm
import TypeCalculus.Proofs.Runner.Fingerprint
import TypeCalculus.Proofs.Document.Parse
import TypeCalculus.Proofs.Checker.Annotated
import TypeCalculus.Proofs.Runner.Answers
import TypeCalculus.Proofs.Runner.Transparency
import TypeCalculus.Proofs.Runner.History
import TypeCalculus.Proofs.Ty.Inherited
import TypeCalculus.Proofs.Ty.Walk
import TypeCalculus.Proofs.Ty.Choices
import TypeCalculus.Proofs.Substitute.Steps
import TypeCalculus.Proofs.Substitute.Grounded
import TypeCalculus.Proofs.Substitute.Termination
import TypeCalculus.Proofs.Ty.Annotated
import TypeCalculus.Proofs.Ty.Rebuilt
import TypeCalculus.Proofs.Checker.Idempotent
import TypeCalculus.Proofs.Checker.Guard
import TypeCalculus.Proofs.Checker.DepthLimit
import TypeCalculus.Proofs.Assignable.Verdict
import TypeCalculus.Proofs.Assignable.FirstOrder
import TypeCalculus.Proofs.Assignable.Preorder
import TypeCalculus.Proofs.Ty.Free
import TypeCalculus.Proofs.Ty.Lasting
import TypeCalculus.Proofs.Substitute.Idempotent
import TypeCalculus.Proofs.Evaluate.Scope
import TypeCalculus.Proofs.Evaluate.FreeParams
import TypeCalculus.Proofs.Checker.FreeParams
import TypeCalculus.Proofs.Evaluate.Concur
import TypeCalculus.Proofs.Checker.Deferral
import TypeCalculus.Proofs.Assignable.Alike
import TypeCalculus.Proofs.Assignable.Join
import TypeCalculus.Proofs.Assignable.Covariant
import TypeCalculus.Proofs.Assignable.Meet
import TypeCalculus.Proofs.Checker.Bare
import TypeCalculus.Proofs.Assignable.Region
import TypeCalculus.Proofs.Evaluate.Along
import TypeCalculus.Proofs.Ty.Mirrored
import TypeCalculus.Proofs.Substitute.Mirrored
import TypeCalculus.Proofs.Evaluate.Mirrored
import TypeCalculus.Proofs.Checker.Mirrored
import TypeCalculus.Proofs.Evaluate.Distribute
import TypeCalculus.Proofs.Substitute.Distribute
import TypeCalculus.Proofs.Checker.Distribute
import TypeCalculus.Proofs.Evaluate.Arguments
import TypeCalculus.Proofs.Checker.Instantiate
import TypeCalculus.Proofs.Assignable.Keys
import TypeCalculus.Proofs.Evaluate.Keys
import TypeCalculus.Proofs.Number.Range
import TypeCalculus.Proofs.Substitute.Agreement
import TypeCalculus.Proofs.Ty.Canonical
import TypeCalculus.Proofs.Ty.CrossProduct
import TypeCalculus.Proofs.Assignable.PrintBack
import TypeCalculus.Proofs.Assignable.FirstSplit
import TypeCalculus.Proofs.Ty.Congruence
import TypeCalculus.Proofs.Ty.FiniteMap
import TypeCalculus.Proofs.Substitute.Validity
import TypeCalculus.Proofs.Substitute.Signatures
import TypeCalculus.Proofs.Runner.Rejection
import TypeCalculus.Proofs.Checker.Order
import TypeCalculus.Proofs.Document.Termination
import TypeCalculus.Proofs.Substitute.Capture
import TypeCalculus.Proofs.Evaluate.Stack
