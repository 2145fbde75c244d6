/-
**Pushing filters towards the sources.**

A filter behind a projection, a join or a product moves before it, to the input that has all fields
that its predicate reads.  The producer must feed nothing but the filter.  Which input has a field
is told by the columns, so the graph is annotated again before each move.
-/

import Dataflow.Optimization.Rule

namespace Dataflow

/-- A filter that can move before its producer, to one of the producer's inputs, with its predicate
there. -/
structure Push where
  filter : Nat
  below : Nat
  slot : Nat
  predicate : Expr

namespace Graph

def columnsOf (g : Dag) (id : Nat) : Option (List (Option Column)) :=
  (g.node? id).map fun n => n.note.fields.map (·.column)

/-- Where a field of the pairs is found on one side: at the first field there that carries its
column.  A column that the pairs carry twice does not tell which side is meant. -/
def sidePosition? (columns side : List (Option Column)) (index : Nat) : Option Nat := do
  let column ← (← columns[index]?)
  if columns.count (some column) = 1 then side.idxOf? (some column) else none

/-- A predicate on the pairs of a join or product as a predicate on the tuples of one side, the left
side first. -/
def sidePredicate? (g : Dag) (product : Nat) (predicate : Expr) : Option (Nat × Expr) := do
  let columns ← g.columnsOf product
  let onSide (slot : Nat) : Option (Option Expr) := do
    let side ← g.columnsOf (← g.producer? product slot)
    return predicate.remap fun arg index => return (arg, ← sidePosition? columns side index)
  match ← onSide 0 with
  | some predicate => return (0, predicate)
  | none => return (1, ← (← onSide 1))

/-- How the filter under a number can move. -/
def push? (g : Dag) (node : Node Operator) : Option Push := do
  let predicate ← node.kind.filter?
  let below ← g.producer? node.id 0
  if (g.outFlows below).length ≠ 1 then none
  let (slot, predicate) ← match (← g.node? below).kind with
    | .primitive (.projection positions) =>
      (0, ·) <$> predicate.remap fun arg index => return (arg, ← positions[index]?)
    | .primitive (.join _) | .primitive .cartesian => g.sidePredicate? below predicate
    | _ => none
  return ⟨node.id, below, slot, predicate⟩

def findPush? (g : Dag) : Option Push :=
  g.nodes.findSome? g.push?

/-- The graph after a move: the filter reads what its producer read at the chosen input, the
producer reads the filter, and what read the filter reads the producer. -/
def applyPush (g : Dag) (push : Push) : Outcome Dag := do
  let ⟨filter, below, slot, predicate⟩ := push
  let source ← Outcome.ofOption (.internal (.producerUnbound below slot)) (g.producer? below slot)
  let consumers := g.outFlows filter
  let g := consumers.foldl (fun g c => g.disconnect c.operator c.slot) g
  let g := (g.disconnect filter 0).disconnect below slot
  let g ← g.connect ⟨source, 0, filter, 0⟩
  let g ← g.connect ⟨filter, 0, below, slot⟩
  let g ← consumers.foldlM (fun g c => g.connect ⟨below, 0, c.operator, c.slot⟩) g
  let g ← if g.sink = some filter then g.setSink below else pure g
  return g.setKind filter (.primitive (.filter predicate))

def pushHere (g : Dag) : Outcome (Option Dag) :=
  match g.findPush? with
  | some push => some <$> g.applyPush push
  | none => return none

/-- Whether filters can move before an operator. -/
def admitsFilters : Operator → Bool
  | .primitive (.projection _) => true
  | .primitive (.join _) => true
  | .primitive .cartesian => true
  | _ => false

/-- The number of pairs of a filter and an operator before it that filters can pass.  Every move
makes it smaller. -/
def pushPotential (g : Dag) : Nat :=
  (g.nodes.filter (·.kind.filter?.isSome)).foldr (fun f sum =>
    g.nodes.countP (fun n => admitsFilters n.kind && g.reaches n.id f.id) + sum) 0

/-- Moves filters one by one, at most `moves` of them, and says whether one was moved. -/
def pushAll : (moves : Nat) → Dag → Outcome (Bool × Dag)
  | 0, g => return (false, ← g.annotated)
  | moves + 1, g => do
    let g ← g.annotated
    match ← g.firstChange pushHere with
    | none => return (false, g)
    | some changed =>
      let (_, g) ← pushAll moves changed
      return (true, g)

end Graph

def Rule.pushdown : Rule where
  name := "PredicatePushdown"
  description := "Move filters below projections, joins and cartesian products"
  apply g := do
    let (changed, g) ← g.pushAll (g.total Graph.pushPotential)
    return if changed then some g else none

end Dataflow
