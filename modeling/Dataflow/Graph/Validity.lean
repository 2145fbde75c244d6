/-
**Validity.**

A graph is valid if every edge joins existing operators through slots that they have, every input
slot has exactly one edge, there is no cycle, every configuration is sound, the sink is one of the
operators, and the graphs inside pipelines are valid and read only inputs that their pipelines have.
-/

import Dataflow.Graph.Edit

namespace Dataflow.Graph

/-- Checks some edges from the first on, given the ones before them. -/
def checkEdges (g : Dag) (before : List Edge) : List Edge → Outcome Unit
  | [] => .ok ()
  | e :: rest => do
    g.checkSlots e
    if before.any (·.enters e.target e.targetSlot) then
      throw (.invalidSlot (.boundTwice e.target e.targetSlot))
    checkEdges g (e :: before) rest

/-- The first input slot of an operator without an edge.  With more slots than edges, one of the
first slots has none. -/
def unboundSlot? (g : Dag) (id slots : Nat) : Option Nat :=
  (List.range (min slots (g.edges.length + 1))).find? fun slot =>
    !g.edges.any (·.enters id slot)

/-- Checks one operator of a graph that has `inputs` inputs, if it is the graph of a pipeline. -/
def checkNode (g : Dag) (inputs : Option Nat) (inner : Table (Option Nat → Outcome Unit))
    (node : Node Operator) : Outcome Unit := do
  match g.unboundSlot? node.id node.kind.inputs with
  | some slot => throw (.invalidSlot (.notBound node.name slot))
  | none => pure ()
  node.kind.check
  match node.kind, inputs with
  | .primitive (.parameterLookup parameter _), some inputs =>
    if inputs ≤ parameter then
      throw (.invalidParameter (.readsBeyondInputs node.name parameter inputs))
  | .pipeline inputs _, _ =>
    match inner.get? node.id with
    | some validate => (validate (some inputs)).mapError (Failure.inCheckedOperator node.name)
    | none => pure ()
  | _, _ => pure ()

def checkSink (g : Dag) : Outcome Unit :=
  match g.sink with
  | some id => if g.contains id then .ok () else .error (.invalidParameter (.sinkMissing id))
  | none => .error (.invalidParameter .noSink)

/-- Checks a graph; one inside a pipeline has as many inputs as the pipeline. -/
def validateWithin : Dag → (inputs : Option Nat) → Outcome Unit :=
  fold fun g inner inputs => do
    checkEdges g [] g.edges
    g.nodes.forM (checkNode g inputs inner)
    let _ ← g.order
    g.checkSink

def validate (g : Dag) : Outcome Unit :=
  g.validateWithin none

end Dataflow.Graph
