import ClassGen.Lower.File
import ClassGen.Settings.Resolve
import ClassGen.Proofs.Preservation.Variables
import ClassGen.Proofs.Preservation.Expr
import ClassGen.Proofs.Lowering.Stmt
import ClassGen.Proofs.Lowering.Labels
import ClassGen.Proofs.Descriptor
import ClassGen.Proofs.Preservation.Stmt
import ClassGen.Proofs.Preservation.Function
import ClassGen.Proofs.Assembly.Pool
import ClassGen.Proofs.Assembly.Decoder
import ClassGen.Proofs.Assembly.Faithful
import ClassGen.Proofs.StackKinds.Flow
import ClassGen.Proofs.StackKinds.Depth
import ClassGen.Proofs.StackKinds.Pieces
import ClassGen.Proofs.StackKinds.Faithful
import ClassGen.Proofs.StackKinds.Expr
import ClassGen.Proofs.StackKinds.Safety
import ClassGen.Proofs.StackKinds.Stmt
import ClassGen.Proofs.StackKinds.Body
import ClassGen.Proofs.StackKinds.File
import ClassGen.Proofs.Text.ModifiedUtf8
import ClassGen.Proofs.ClassFile.Reader
import ClassGen.Proofs.ClassFile.Constants
import ClassGen.Proofs.ClassFile.RoundTrip
import ClassGen.Proofs.ClassFile.Interning
import ClassGen.Proofs.ClassFile.Counts
import ClassGen.Proofs.Linking.Table
import ClassGen.Proofs.Linking.Calls
import ClassGen.Proofs.Linking.Trail
import ClassGen.Proofs.Linking.Bodies
import ClassGen.Proofs.Linking.Worklist
import ClassGen.Proofs.Linking.File
import ClassGen.Proofs.Linking.Linked
import ClassGen.Proofs.Linking.Methods
import ClassGen.Proofs.Lowering.Confined
import ClassGen.Proofs.Linking.Units
import ClassGen.Proofs.Slots.Cells
import ClassGen.Proofs.Slots.File
import ClassGen.Proofs.Slots.Layout
import ClassGen.Proofs.Assembly.Labels
import ClassGen.Proofs.ControlFlow.Path
import ClassGen.Proofs.ControlFlow.Closed
import ClassGen.Proofs.Assignment.Flow
import ClassGen.Proofs.Assignment.Scopes
import ClassGen.Proofs.Assignment.Stmt
import ClassGen.Proofs.Assignment.File
import ClassGen.Proofs.Order.Local
import ClassGen.Proofs.Order.Runs
import ClassGen.Proofs.Order.Declarations
import ClassGen.Proofs.Order.Instantiations
import ClassGen.Proofs.Order.File
import ClassGen.Proofs.ControlFlow.Inward
import ClassGen.Proofs.Matching.Machine
import ClassGen.Proofs.Matching.Arms
import ClassGen.Proofs.Scoping.Resolver
import ClassGen.Proofs.Scoping.Lookups
import ClassGen.Proofs.Scoping.Trace
import ClassGen.Proofs.Scoping.Body
import ClassGen.Proofs.Scoping.SlotUses
import ClassGen.Proofs.Scoping.Method
import ClassGen.Proofs.Types.Placeholders
import ClassGen.Proofs.Types.Narrowing
import ClassGen.Proofs.Types.Names
import ClassGen.Proofs.Matching.Tags
import ClassGen.Proofs.Values.Visits
import ClassGen.Proofs.Values.Missing
import ClassGen.Proofs.Iteration.Machine
import ClassGen.Proofs.Iteration.Pieces
import ClassGen.Proofs.Iteration.Loop
import ClassGen.Proofs.Evaluation.Parts
import ClassGen.Proofs.Evaluation.Fatal
import ClassGen.Proofs.Linking.Declared
import ClassGen.Proofs.Slots.Params
import ClassGen.Proofs.Objects.Machine
import ClassGen.Proofs.Objects.Struct
import ClassGen.Proofs.Descriptor.Grammar
import ClassGen.Proofs.Slots.Agreement
import ClassGen.Proofs.ControlFlow.Depth
import ClassGen.Proofs.Fields.Machine
import ClassGen.Proofs.Fields.Chain
import ClassGen.Proofs.Specialization.Resolution
import ClassGen.Proofs.Specialization.Binding
import ClassGen.Proofs.Specialization.History
import ClassGen.Proofs.Lowering.Actions
import ClassGen.Proofs.Tracing.Inert
import ClassGen.Proofs.Tracing.Events
import ClassGen.Proofs.Scope.Lookup
import ClassGen.Proofs.Scope.History
