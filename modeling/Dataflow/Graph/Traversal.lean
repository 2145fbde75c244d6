/-
**Traversal.**

A traversal enters and leaves every operator of a graph, in topological order or against it.  A
recursive traversal goes through the graph of a pipeline between entering and leaving the pipeline.
The events of a traversal are a list, made before the first of them is acted upon, so a graph with a
cycle is refused before anything happens.
-/

import Dataflow.Graph.Edit

namespace Dataflow

inductive Phase where
  | enter
  | exit
deriving DecidableEq, Repr

/-- An operator of a graph that is entered or left. -/
structure Event where
  phase : Phase
  node : Node Operator
  graph : Dag

namespace Graph

/-- The events at one operator, around those of the graph inside it. -/
def eventsAt (g : Dag) (inner : Table (List Event)) (id : Nat) : List Event :=
  match g.node? id with
  | some node => ⟨.enter, node, g⟩ :: (inner.get? id).getD [] ++ [⟨.exit, node, g⟩]
  | none => []

/-- The events of one graph, pipelines not gone into. -/
def level (direction : Direction) (g : Dag) : Outcome (List Event) := do
  let order ← g.orderIn direction
  return order.flatMap (g.eventsAt [])

/-- The events of a graph and of all graphs inside it. -/
def trace (direction : Direction) : Dag → Outcome (List Event) :=
  fold fun g inner => do
    let order ← g.orderIn direction
    let inner ← inner.mapM fun (id, events) => return (id, ← events)
    return order.flatMap (g.eventsAt inner)

/-- Acts on the events of a traversal, one after the other, until an action fails. -/
def traverse {m : Type → Type} [Monad m] (direction : Direction) (recursive : Bool) (g : Dag)
    (visit : Event → ExceptT Failure m Unit) : ExceptT Failure m Unit := do
  let events ← Outcome.lift (if recursive then g.trace direction else g.level direction)
  events.forM visit

end Graph

end Dataflow
