import ProcTree.Text.Blank
import ProcTree.Text.Literal
import ProcTree.Text.Lines
import ProcTree.Text.Quoted
import ProcTree.Value.Real
import ProcTree.Kind
import ProcTree.Error
import ProcTree.Operator
import ProcTree.Value.Operation
import ProcTree.Table
import ProcTree.Tree
import ProcTree.Evaluation
import ProcTree.Lowering
import ProcTree.Listing.Reading
import ProcTree.Proofs.Outcome
import ProcTree.Proofs.Tree
import ProcTree.Proofs.Evaluation.Frame
import ProcTree.Proofs.Operator
import ProcTree.Proofs.Evaluation.Soundness
import ProcTree.Proofs.Lowering.Steps
import ProcTree.Proofs.Lowering.Labels
import ProcTree.Proofs.Lowering.Pairing
import ProcTree.Proofs.Lowering.Growth
import ProcTree.Proofs.Execution
import ProcTree.Proofs.Evaluation.Expression
import ProcTree.Proofs.Simulation.Operators
import ProcTree.Proofs.Simulation.Expressions
import ProcTree.Proofs.Simulation.Statements
import ProcTree.Proofs.Simulation.Behavior
import ProcTree.Proofs.Listing.Lines
import ProcTree.Proofs.Listing.RoundTrip
import ProcTree.Proofs.Lowering.Extension
import ProcTree.Proofs.Use
import ProcTree.Proofs.Refinement
import ProcTree.Proofs.Lowering.Faults
import ProcTree.Proofs.Lowering.Typed
import ProcTree.Proofs.Lowering.Totality
import ProcTree.Proofs.Listing.Values
import ProcTree.Proofs.Listing.Grammar
import ProcTree.Proofs.Listing.Acceptance
import ProcTree.Proofs.Listing.Declared
import ProcTree.Proofs.Lowering.Closure
import ProcTree.Proofs.Rules
import ProcTree.Proofs.Evaluation.Locality
import ProcTree.Proofs.Lowering.Layouts
import ProcTree.Proofs.Lowering.Dangling
import ProcTree.Proofs.Temporaries
import ProcTree.Proofs.Lowering.Additions
import ProcTree.Proofs.Lowering.Tracking
import ProcTree.Proofs.Lowering.Intact
import ProcTree.Proofs.Lowering.Definition
import ProcTree.Proofs.Lowering.Jumps
import ProcTree.Proofs.Lowering.Correspondence
import ProcTree.Proofs.Lowering.Renaming
import ProcTree.Proofs.Evaluation.Effects
import ProcTree.Proofs.Evaluation.Order
import ProcTree.Proofs.Evaluation.Capacity
import ProcTree.Proofs.Evaluation.Loops
import ProcTree.Proofs.Nesting
import ProcTree.Proofs.Evaluation.Integers
import ProcTree.Proofs.Encoding
import ProcTree.Proofs.Evaluation.Comparisons
import ProcTree.Proofs.Freshness
import ProcTree.Proofs.Listing.Spacing
import ProcTree.Proofs.Listing.Normal
import ProcTree.Proofs.Listing.Numerals
import ProcTree.Proofs.Pairing
import ProcTree.Proofs.Listing.Validation
import ProcTree.Proofs.Listing.Escapes
