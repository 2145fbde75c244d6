/-
**Types of graphs.**

Every operator of a graph has an output type, found in topological order; the graph of a pipeline is
typed with the types of the pipeline's inputs, and the pipeline has the type of its sink.
-/

import Dataflow.Graph.Edit
import Dataflow.Typing.Primitive

namespace Dataflow

/-- The output types of the operators of a graph, and the types of the graphs inside pipelines. -/
structure GraphTypes where
  outputs : Table TupleType := []
  inner : List (Nat × GraphTypes) := []

def GraphTypes.output (types : GraphTypes) (id : Nat) : Outcome TupleType :=
  Outcome.ofOption (.internal (.untyped id)) (types.outputs.get? id)

namespace Graph

def inputTypes (g : Dag) (types : GraphTypes) (id : Nat) : Outcome (List TupleType) :=
  (g.producers id).mapM types.output

/-- Finds the type of one operator from the types of those before it.  `inner` types the graphs
inside, and `bound` has the types of the inputs of the pipeline around the graph. -/
def typeNode (g : Dag) (inner : Table (Option (List TupleType) → Outcome GraphTypes))
    (bound : Option (List TupleType)) (types : GraphTypes) (id : Nat) : Outcome GraphTypes := do
  let node ← g.get id
  let inputs ← g.inputTypes types id
  match node.kind with
  | .primitive p =>
    let output ← (p.outputType inputs bound).mapError (Failure.inTypedOperator node.name)
    return { types with outputs := types.outputs.put id output }
  | .pipeline _ h =>
    node.kind.checkArity inputs
    let infer ← Outcome.ofOption (.internal (.untyped id)) (inner.get? id)
    let innerTypes ← infer (some inputs)
    let sink ← Outcome.ofOption (.schema (.innerWithoutSink node.name)) h.sink
    let output ← innerTypes.output sink
    return ⟨types.outputs.put id output, Table.put id innerTypes types.inner⟩

/-- The types of a graph inside a pipeline whose inputs have the types `bound`, or of an outer
graph. -/
def typesWithin : Dag → (bound : Option (List TupleType)) → Outcome GraphTypes :=
  fold fun g inner bound => do
    let order ← g.order
    order.foldlM (g.typeNode inner bound) {}

def types (g : Dag) : Outcome GraphTypes :=
  g.typesWithin none

end Graph

def Operator.outputType (op : Operator) (inputs : List TupleType)
    (bound : Option (List TupleType)) : Outcome TupleType :=
  match op with
  | .primitive p => p.outputType inputs bound
  | .pipeline _ h => do
    op.checkArity inputs
    let types ← h.typesWithin (some inputs)
    let sink ← Outcome.ofOption (.schema .pipelineWithoutSink) h.sink
    types.output sink

end Dataflow
