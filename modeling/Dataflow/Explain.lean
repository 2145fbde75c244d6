/-
**Explanations.**

A graph is explained as a tree with its sink at the root and the producers of an operator below it.
An operator that feeds several others is shown in full once and named afterwards.  The graph of a
pipeline stands below the pipeline's producers.
-/

import Dataflow.Operator.Basic
import Dataflow.Text.Tree

namespace Dataflow

def Field.text (f : Field) : String :=
  match f.column with
  | some column => f.name ++ "=" ++ column.text ++ ": " ++ f.type.text
  | none => f.name ++ ": " ++ f.type.text

/-- What annotation found out about a node, one line each; empty sets are left out. -/
def Note.lines (note : Note) : List String :=
  (if note.fields.isEmpty then []
    else ["columns: " ++ Text.bracketed (note.fields.map Field.text)])
  ++ ([("reads", note.reads), ("writes", note.writes), ("dead", note.dead)].filter
      (!·.2.isEmpty)).map fun (label, set) => label ++ ": " ++ Columns.text set

namespace Graph

/-- The operators at which an explanation begins: the sink, or all without consumers. -/
def roots (g : Dag) : List Nat :=
  match g.sink with
  | some sink => [sink]
  | none => g.ids.filter fun id => (g.consumers id).isEmpty

/-- The tree of an operator and its producers.  The state holds the operators that were shown in
full; `depth` bounds the operators on one path, all of which are different. -/
def explainNode (g : Dag) (inner : Table (List Text.Tree)) : (depth : Nat) → (id : Nat) →
    StateM (List Nat) Text.Tree
  | depth, id => do
    match g.node? id, depth with
    | none, _ => return .node s!"<missing {id}>" none [] []
    | some node, 0 => return .node node.name (some "shared") [] []
    | some node, depth + 1 =>
      let shown ← get
      if id ∈ shown then return .node node.name (some "shared") [] []
      set (id :: shown)
      let producers ← (g.producers id).mapM (explainNode g inner depth)
      let within := match inner.get? id with
        | some trees => [.node "inner" none [] trees]
        | none => []
      return .node node.name (some node.kind.text) node.note.lines (producers ++ within)

/-- The trees of the operators at which the explanation of a graph begins. -/
def explanations : Dag → List Text.Tree :=
  fold fun g inner => ((g.roots.mapM (g.explainNode inner (g.size + 1))).run []).1

def explanation (g : Dag) : Text.Tree :=
  match g.explanations with
  | [tree] => tree
  | trees => .node "dag" none [] trees

def explain (g : Dag) : String :=
  g.explanation.render

end Graph

end Dataflow
