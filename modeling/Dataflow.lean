import Dataflow.Main
import Dataflow.Proofs.Code.Integers
import Dataflow.Proofs.Code.Numbering
import Dataflow.Proofs.Code.Signs
import Dataflow.Proofs.ColumnTypes
import Dataflow.Proofs.Document.Texts
import Dataflow.Proofs.Evaluation.DeadColumns
import Dataflow.Proofs.Evaluation.KeyIdentity
import Dataflow.Proofs.Evaluation.Materialization
import Dataflow.Proofs.Evaluation.Scanning
import Dataflow.Proofs.Explanations
import Dataflow.Proofs.Graph.Failures
import Dataflow.Proofs.KnownProperties
import Dataflow.Proofs.Optimization.Sides
import Dataflow.Proofs.Optimization.Stacks
import Dataflow.Proofs.Stability
import Dataflow.Proofs.Value.Reading
import Dataflow.Tool.Memory
