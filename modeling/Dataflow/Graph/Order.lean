/-
**Topological order.**

Nodes are put in order one by one: always the one with the smallest number among those whose
producers have all been placed.  What remains when no node is left with that property lies on a
cycle or after one.
-/

import Dataflow.Failure
import Dataflow.Graph.Reach

namespace Dataflow

/-- Producers first, or consumers first. -/
inductive Direction where
  | forward
  | backward
deriving DecidableEq, Repr

namespace Graph

/-- The first of some nodes that no edge enters. -/
def ready? (edges : List Edge) (ids : List Nat) : Option Nat :=
  ids.find? fun id => !edges.any (·.target == id)

/-- The nodes that can be placed after their producers, in order, and those that cannot. -/
def schedule (edges : List Edge) (ids : List Nat) : List Nat × List Nat :=
  match _found : ready? edges ids with
  | none => ([], ids)
  | some id =>
    let (placed, stuck) := schedule (dropSource edges id) (ids.erase id)
    (id :: placed, stuck)
termination_by ids.length
decreasing_by
  have hmem := List.mem_of_find?_eq_some _found
  rw [List.length_erase_of_mem hmem]
  have := List.length_pos_of_mem hmem
  omega

variable {κ : Type}

def innerEdges (g : Graph κ) : List Edge :=
  g.edges.filter fun e => g.contains e.source && g.contains e.target

/-- The nodes in topological order, the smallest number first among those that could come next. -/
def order (g : Graph κ) : Outcome (List Nat) :=
  match schedule g.innerEdges g.ids with
  | (placed, []) => .ok placed
  | (_, stuck) => .error (.cyclicGraph (.stuck stuck))

def orderIn (g : Graph κ) : Direction → Outcome (List Nat)
  | .forward => g.order
  | .backward => g.order.map List.reverse

end Graph

end Dataflow
