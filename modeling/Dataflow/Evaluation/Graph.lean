/-
**Carrying out graphs.**

The operators of a graph are carried out in topological order, and what each of them produces is
stored at its output type.  The graph of a pipeline is carried out with the rows of the pipeline's
inputs as its parameters.
-/

import Dataflow.Evaluation.Primitive
import Dataflow.Typing.Graph

namespace Dataflow.Graph

def operands (g : Dag) (types : GraphTypes) (results : Table Rows) (node : Node Operator) :
    Outcome (List Stream) :=
  (g.producers node.id).mapM fun p => do
    let rows ← Outcome.ofOption (.internal (.evaluatedEarly node.name)) (results.get? p)
    return ⟨← types.output p, rows⟩

def evaluateNode (g : Dag) (inner : Table (GraphTypes → List Rows → Outcome Rows))
    (types : GraphTypes) (parameters : List Rows) (results : Table Rows) (id : Nat) :
    Outcome (Table Rows) := do
  let node ← g.get id
  let operands ← g.operands types results node
  let produced : Outcome Rows := match node.kind with
    | .primitive p => p.run operands parameters
    | .pipeline _ _ => do
      let innerTypes ← Outcome.ofOption (.internal (.innerUntyped node.name))
        (Table.get? types.inner id)
      let run ← Outcome.ofOption (.internal (.innerUntyped node.name)) (inner.get? id)
      run innerTypes (operands.map (·.rows))
  let rows ← produced.mapError (Failure.inRunningOperator node.name)
  let output ← types.output id
  return results.put id (rows.map output.store)

def evaluateWith : Dag → GraphTypes → (parameters : List Rows) → Outcome Rows :=
  fold fun g inner types parameters => do
    let order ← g.order
    let results ← order.foldlM (g.evaluateNode inner types parameters) []
    let sink ← Outcome.ofOption (.invalidParameter .noSink) g.sink
    Outcome.ofOption (.internal (.sinkNotEvaluated sink)) (results.get? sink)

/-- The rows of the sink of a graph with the given rows as its parameters. -/
def evaluate (g : Dag) (parameters : List Rows) : Outcome Rows := do
  g.evaluateWith (← g.types) parameters

end Dataflow.Graph
