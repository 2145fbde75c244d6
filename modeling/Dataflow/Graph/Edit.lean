/-
**Changing a graph.**

Operators and edges are added and removed under checks: an edge joins existing operators through
slots that they have, an input slot has at most one edge, no edge closes a cycle, and an operator is
removed only when no edge is left at it.
-/

import Dataflow.Graph.Order
import Dataflow.Operator.Basic

namespace Dataflow

/-- A failure that came in the middle of a change, and the graph as it was left. -/
structure Interruption where
  failure : Failure
  reached : Dag

namespace Graph

def get (g : Dag) (id : Nat) : Outcome (Node Operator) :=
  Outcome.ofOption (.invalidParameter (.unknownOperator id)) (g.node? id)

def add (g : Dag) (op : Operator) : Nat × Dag :=
  (g.nextId, g.insert g.nextId op)

def addAt (g : Dag) (id : Nat) (op : Operator) : Outcome Dag :=
  if g.contains id then .error (.invalidParameter (.idInUse id)) else .ok (g.insert id op)

/-- Checks that an edge joins existing operators through slots that they have. -/
def checkSlots (g : Dag) (e : Edge) : Outcome Unit := do
  let source ← Outcome.ofOption (.invalidSlot (.noSource e.source)) (g.node? e.source)
  let target ← Outcome.ofOption (.invalidSlot (.noTarget e.target)) (g.node? e.target)
  if source.kind.outputs ≤ e.sourceSlot then
    throw (.invalidSlot (.noOutputSlot source.name e.sourceSlot))
  if target.kind.inputs ≤ e.targetSlot then
    throw (.invalidSlot (.noInputSlot target.name e.targetSlot))

def connectUnchecked (g : Dag) (e : Edge) : Dag :=
  { g with edges := g.edges ++ [e] }

/-- Adds an edge to an input slot that has none, unless that closes a cycle. -/
def connect (g : Dag) (e : Edge) : Outcome Dag := do
  g.checkSlots e
  if (g.producer? e.target e.targetSlot).isSome then
    throw (.invalidSlot (.alreadyBound e.target e.targetSlot))
  if e.source = e.target ∨ g.reaches e.target e.source then
    throw (.cyclicGraph (.closing e.source e.target))
  return g.connectUnchecked e

def edgeAt? (g : Dag) (target slot : Nat) : Option Edge :=
  g.edges.find? (·.enters target slot)

def disconnect (g : Dag) (target slot : Nat) : Dag :=
  { g with edges := g.edges.eraseP (·.enters target slot) }

def remove (g : Dag) (id : Nat) : Outcome (Node Operator × Dag) := do
  if g.degree id ≠ 0 then throw (.danglingEdge id (g.degree id))
  let node ← g.get id
  return (node, g.erase id)

/-- Connects an input slot to another source.  If that fails, the edge that was there is put back,
behind all others. -/
def rewire (g : Dag) (e : Edge) : Except Interruption Dag :=
  match (g.disconnect e.target e.targetSlot).connect e with
  | .ok changed => .ok changed
  | .error failure =>
    match g.edgeAt? e.target e.targetSlot with
    | some old => .error ⟨failure, (g.disconnect e.target e.targetSlot).connectUnchecked old⟩
    | none => .error ⟨failure, g⟩

def setSink (g : Dag) (id : Nat) : Outcome Dag := do
  let _ ← g.get id
  return { g with sink := some id }

def setKind (g : Dag) (id : Nat) (op : Operator) : Dag :=
  g.modify id fun n => { n with kind := op }

/-- A graph with other graphs inside, by the numbers of their pipelines. -/
def withInner (g : Dag) (inner : Table Dag) : Dag :=
  { g with nodes := g.nodes.map fun n =>
      match inner.get? n.id with
      | some h => { n with kind := n.kind.withInner h }
      | none => n }

/-- The graph that is reached through some pipelines. -/
def innerAt? : (path : List Nat) → Dag → Option Dag
  | [], g => some g
  | id :: rest, g => (g.inner? id).bind (innerAt? rest)

/-- A graph with another one in the place that is reached through some pipelines. -/
def putInnerAt (h : Dag) : (path : List Nat) → Dag → Dag
  | [], _ => h
  | id :: rest, g =>
    match g.inner? id with
    | some inner =>
      g.modify id fun n => { n with kind := n.kind.withInner (putInnerAt h rest inner) }
    | none => g

end Graph

end Dataflow
