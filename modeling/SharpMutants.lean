import SharpMutants.Decimal
import SharpMutants.Syntax.Parse
import SharpMutants.Syntax.Render
import SharpMutants.Syntax.Arena
import SharpMutants.Json.Print
import SharpMutants.Json.Read
import SharpMutants.Check.Checker
import SharpMutants.Dataflow.MethodFlow
import SharpMutants.Analysis.Dot
import SharpMutants.Mutation.Run
import SharpMutants.Analysis.Report
import SharpMutants.Output.Disk
import SharpMutants.Output.Job
import SharpMutants.Main
import SharpMutants.Proofs.Completeness
import SharpMutants.Proofs.ControlFlow
import SharpMutants.Proofs.Dataflow.LeastSolution
import SharpMutants.Proofs.Dataflow.UseDef
import SharpMutants.Proofs.Dataflow.Coverage
import SharpMutants.Proofs.Mutation.Chains
import SharpMutants.Proofs.Mutation.Distinct
import SharpMutants.Proofs.Mutation.RoundTrip
import SharpMutants.Proofs.Numbering
import SharpMutants.Proofs.Check.Progress
import SharpMutants.Proofs.Check.Runs
import SharpMutants.Proofs.Check.Forms
import SharpMutants.Proofs.Check.Statements
import SharpMutants.Proofs.Rendering.Extents
import SharpMutants.Proofs.Check.Returns
import SharpMutants.Proofs.Check.Tracking
import SharpMutants.Proofs.Check.Locals
import SharpMutants.Proofs.Check.Assignment
import SharpMutants.Proofs.Layout.Bare
import SharpMutants.Proofs.Layout.Findings
import SharpMutants.Proofs.Layout.Mutants
import SharpMutants.Proofs.Layout.Runs
import SharpMutants.Proofs.Check.Acceptance
import SharpMutants.Proofs.Mutation.Outcome
import SharpMutants.Proofs.Shape
import SharpMutants.Syntax.Regraft
import SharpMutants.Proofs.Output.Calls
import SharpMutants.Proofs.Output.Deliveries
import SharpMutants.Proofs.Output.Drawings
import SharpMutants.Proofs.Substitution
import SharpMutants.Proofs.Dataflow.Reachability
import SharpMutants.Proofs.Dataflow.Cycles
import SharpMutants.Proofs.Dataflow.UseSites
import SharpMutants.Proofs.Check.Clashes
import SharpMutants.Proofs.Dataflow.Postorder
import SharpMutants.Proofs.Layout.Comments
import SharpMutants.Proofs.Rendering.Canonical
import SharpMutants.Proofs.Scanning.Exact
import SharpMutants.Proofs.Dataflow.ConditionUses
import SharpMutants.Proofs.Dataflow.Cyclomatic
import SharpMutants.Proofs.Refusals
import SharpMutants.Proofs.NodeArray
