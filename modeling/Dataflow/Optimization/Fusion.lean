/-
**Fusing projections.**

Two projections one after the other select what one projection can select.  The inner one is removed
if nothing else reads it and it is not the sink.
-/

import Dataflow.Optimization.Rule

namespace Dataflow

/-- A projection that can take the place of itself and its producer, with the positions it selects
then. -/
structure Fusion where
  outer : Nat
  inner : Nat
  positions : List Nat

namespace Graph

/-- How the projection under a number can be fused with its producer. -/
def fusion? (g : Dag) (node : Node Operator) : Option Fusion := do
  let outer ← node.kind.projection?
  let below ← g.producer? node.id 0
  let inner ← (← g.node? below).kind.projection?
  if (g.outFlows below).length ≠ 1 ∨ g.sink = some below then none
  return ⟨node.id, below, ← composePositions inner outer⟩

def findFusion? (g : Dag) : Option Fusion :=
  g.nodes.findSome? g.fusion?

def applyFusion (g : Dag) (fusion : Fusion) : Outcome Dag := do
  let ⟨outer, inner, positions⟩ := fusion
  let source ← Outcome.ofOption (.internal (.projectionUnbound inner)) (g.producer? inner 0)
  let (_, g) ← ((g.disconnect outer 0).disconnect inner 0).remove inner
  let g ← g.connect ⟨source, 0, outer, 0⟩
  return g.setKind outer (.primitive (.projection positions))

def fuseHere (g : Dag) : Outcome (Option Dag) :=
  match g.findFusion? with
  | some fusion => some <$> g.applyFusion fusion
  | none => return none

/-- The number of projections of a graph.  Every fusion removes one. -/
def projectionCount (g : Dag) : Nat :=
  g.nodes.countP (·.kind.projection?.isSome)

/-- Fuses projections one by one, at most `fusions` times, and says whether there was one. -/
def fuseAll : (fusions : Nat) → Dag → Outcome (Bool × Dag)
  | 0, g => return (false, g)
  | fusions + 1, g => do
    match ← g.firstChange fuseHere with
    | none => return (false, g)
    | some changed =>
      let (_, g) ← fuseAll fusions changed
      return (true, g)

end Graph

def Rule.fusion : Rule where
  name := "ProjectionFusion"
  description := "Collapse stacked projections"
  apply g := do
    let (changed, g) ← g.fuseAll (g.total Graph.projectionCount)
    return if changed then some g else none

end Dataflow
