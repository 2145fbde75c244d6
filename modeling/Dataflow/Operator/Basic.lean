/-
**Operators.**

An operator makes a stream of tuples from the streams at its input slots.  A primitive operator is
described by its configuration alone; a pipeline holds a graph of operators of its own, which reads
the pipeline's inputs by parameter look-ups and ends in its sink.

Main results:

* `Graph.fold_eq` — the result of a graph comes from the results of the graphs inside it;
* `Graph.induction` — induction along the graphs inside a graph.
-/

import Dataflow.Expr.Basic
import Dataflow.Graph.Basic
import Dataflow.Operator.Range
import Dataflow.Table

namespace Dataflow

/-! ### Aggregates -/

/-- The functions that summarise the rows of a group. -/
inductive AggregateFn where
  | count
  | sum
  | min
  | max
deriving DecidableEq, Repr

def AggregateFn.all : List AggregateFn := [count, sum, min, max]

def AggregateFn.name : AggregateFn → String
  | count => "count"
  | sum => "sum"
  | min => "min"
  | max => "max"

def AggregateFn.ofName? (name : String) : Option AggregateFn :=
  all.find? (·.name == name)

/-- An aggregate of the rows of a group: a function, and the field that it looks at. -/
structure Aggregate where
  fn : AggregateFn
  field : Option Nat := none
deriving DecidableEq, Repr

def Aggregate.text (a : Aggregate) : String :=
  match a.field with
  | some field => a.fn.name ++ "($" ++ toString field ++ ")"
  | none => a.fn.name ++ "(*)"

/-! ### Tags -/

inductive Tag where
  | range
  | constantTuple
  | parameterLookup
  | rowScan
  | filter
  | map
  | projection
  | reduce
  | reduceByKey
  | groupBy
  | join
  | cartesian
  | partition
  | materializeRowVector
  | ensureSingleTuple
  | pipeline
deriving DecidableEq, Repr

def Tag.name : Tag → String
  | range => "range"
  | constantTuple => "constant_tuple"
  | parameterLookup => "parameter_lookup"
  | rowScan => "row_scan"
  | filter => "filter"
  | map => "map"
  | projection => "projection"
  | reduce => "reduce"
  | reduceByKey => "reduce_by_key"
  | groupBy => "group_by"
  | join => "join"
  | cartesian => "cartesian"
  | partition => "partition"
  | materializeRowVector => "materialize_row_vector"
  | ensureSingleTuple => "ensure_single_tuple"
  | pipeline => "pipeline"

/-! ### Primitive operators -/

/-- An operator without a graph of its own. -/
inductive Primitive where
  | range (range : Range)
  | constantTuple (values : List Literal)
  /-- The rows of a parameter; inside a pipeline the type may be left open. -/
  | parameterLookup (parameter : Nat) (type : Option TupleType)
  /-- The items of the array in field 0, each as a tuple, behind its index if asked for. -/
  | rowScan (addIndex : Bool)
  | filter (predicate : Expr)
  | map (function : Expr)
  | projection (positions : List Nat)
  /-- All tuples combined by a function of two tuples. -/
  | reduce (function : Expr)
  /-- The tuples of each key, which is field 0, combined by a function of their other fields. -/
  | reduceByKey (function : Expr)
  /-- One tuple per key: the key fields, then the aggregates of its tuples. -/
  | groupBy (keys : List Nat) (aggregates : List Aggregate)
  /-- The pairs of a left and a right tuple whose first `keys` fields agree. -/
  | join (keys : Nat)
  | cartesian
  /-- Every tuple behind the partition of its key field. -/
  | partition (count key : Nat)
  /-- One tuple that holds all tuples in an array. -/
  | materializeRowVector
  /-- The only tuple; more or fewer are an error. -/
  | ensureSingleTuple

namespace Primitive

def tag : Primitive → Tag
  | range _ => .range
  | constantTuple _ => .constantTuple
  | parameterLookup _ _ => .parameterLookup
  | rowScan _ => .rowScan
  | filter _ => .filter
  | map _ => .map
  | projection _ => .projection
  | reduce _ => .reduce
  | reduceByKey _ => .reduceByKey
  | groupBy _ _ => .groupBy
  | join _ => .join
  | cartesian => .cartesian
  | partition _ _ => .partition
  | materializeRowVector => .materializeRowVector
  | ensureSingleTuple => .ensureSingleTuple

def inputs : Primitive → Nat
  | range _ | constantTuple _ | parameterLookup _ _ => 0
  | join _ | cartesian => 2
  | _ => 1

/-- Checks what the fields of a configuration alone do not exclude. -/
def check : Primitive → Outcome Unit
  | range r => if r.step = 0 then .error (.invalidParameter .zeroStep) else .ok ()
  | partition count _ => if count = 0 then .error (.invalidParameter .noPartitions) else .ok ()
  | _ => .ok ()

/-- The configuration of an operator in explanations; some have none. -/
def detail : Primitive → Option String
  | range r => some r.text
  | constantTuple values => some ("values=(" ++ ", ".intercalate (values.map Literal.text) ++ ")")
  | parameterLookup parameter none => some s!"parameter={parameter}"
  | parameterLookup parameter (some type) => some (s!"parameter={parameter}, type=" ++ type.text)
  | rowScan addIndex => some ("add_index=" ++ if addIndex then "true" else "false")
  | filter predicate => some predicate.text
  | map function => some function.text
  | projection positions => some ("positions=" ++ Text.bracketed (positions.map toString))
  | reduce function => some function.text
  | reduceByKey function => some ("key=0, " ++ function.text)
  | groupBy keys aggregates =>
    some ("keys=" ++ Text.bracketed (keys.map toString) ++ ", aggregates="
      ++ Text.bracketed (aggregates.map Aggregate.text))
  | join keys => some s!"num_keys={keys}"
  | cartesian => none
  | partition count key => some (s!"num_partitions={count}, key=$" ++ toString key)
  | materializeRowVector => none
  | ensureSingleTuple => none

/-- Whether two operators have equal configurations, double constants compared as numbers. -/
def same : Primitive → Primitive → Bool
  | range r, range s => r = s
  | constantTuple xs, constantTuple ys =>
    xs.length == ys.length && (xs.zip ys).all fun (x, y) => x.same y
  | parameterLookup p t, parameterLookup q u => p == q && t = u
  | rowScan b, rowScan c => b == c
  | filter d, filter e => d.same e
  | map d, map e => d.same e
  | projection ps, projection qs => ps == qs
  | reduce d, reduce e => d.same e
  | reduceByKey d, reduceByKey e => d.same e
  | groupBy ks as, groupBy ls bs => ks == ls && as = bs
  | join k, join l => k == l
  | cartesian, cartesian => true
  | partition n k, partition m l => n == m && k == l
  | materializeRowVector, materializeRowVector => true
  | ensureSingleTuple, ensureSingleTuple => true
  | _, _ => false

end Primitive

/-- The positions that two projections, one after the other, select together. -/
def composePositions (inner outer : List Nat) : Option (List Nat) :=
  outer.mapM (inner[·]?)

/-! ### Operators and their graphs -/

/-- A primitive operator, or a pipeline with a graph of its own. -/
inductive Operator where
  | primitive (primitive : Primitive)
  | pipeline (inputs : Nat) (inner : Graph Operator)

abbrev Dag := Graph Operator

namespace Operator

def tag : Operator → Tag
  | primitive p => p.tag
  | pipeline _ _ => .pipeline

def inputs : Operator → Nat
  | primitive p => p.inputs
  | pipeline inputs _ => inputs

/-- Every operator has one output slot. -/
def outputs (_ : Operator) : Nat := 1

/-- Whether an operator produces tuples from nothing. -/
def isSource : Operator → Bool
  | primitive p => p.inputs = 0
  | pipeline _ _ => false

def inner? : Operator → Option Dag
  | primitive _ => none
  | pipeline _ inner => some inner

def projection? : Operator → Option (List Nat)
  | primitive (.projection positions) => some positions
  | _ => none

def filter? : Operator → Option Expr
  | primitive (.filter predicate) => some predicate
  | _ => none

/-- An operator with another graph inside; primitive operators stay as they are. -/
def withInner (inner : Dag) : Operator → Operator
  | primitive p => primitive p
  | pipeline inputs _ => pipeline inputs inner

/-- Checks what the fields of a configuration alone do not exclude. -/
def check : Operator → Outcome Unit
  | primitive p => p.check
  | pipeline _ _ => .ok ()

def text (op : Operator) : String :=
  let detail := match op with
    | primitive p => p.detail
    | pipeline inputs inner => some s!"num_inputs={inputs}, operators={inner.size}"
  match detail with
  | some detail => op.tag.name ++ "(" ++ detail ++ ")"
  | none => op.tag.name

end Operator

def Node.name (n : Node Operator) : String :=
  n.kind.tag.name ++ "_" ++ toString n.id

namespace Graph

/-- The graphs of the pipelines of a graph, by the numbers of the pipelines. -/
def inner (g : Dag) : Table Dag :=
  g.nodes.filterMap fun n => n.kind.inner?.map (n.id, ·)

def inner? (g : Dag) (id : Nat) : Option Dag :=
  (g.node? id).bind (·.kind.inner?)

mutual

def foldOperator {α : Type} (f : Dag → Table α → α) : Operator → Option α
  | .primitive _ => none
  | .pipeline _ inner => some (fold f inner)

/-- The result of a graph, computed by `f` from the graph and the results of the graphs inside
it. -/
def fold {α : Type} (f : Dag → Table α → α) : Graph Operator → α
  | ⟨nodes, edges, sink, nextId, allocated⟩ =>
    f ⟨nodes, edges, sink, nextId, allocated⟩ (foldNodes f nodes)

def foldNodes {α : Type} (f : Dag → Table α → α) : List (Node Operator) → Table α
  | [] => []
  | node :: rest =>
    match foldNode f node with
    | some a => (node.id, a) :: foldNodes f rest
    | none => foldNodes f rest

def foldNode {α : Type} (f : Dag → Table α → α) : Node Operator → Option α
  | ⟨_, kind, _⟩ => foldOperator f kind

end

/-- The result of a graph comes from the results of the graphs inside it. -/
theorem fold_eq {α : Type} (f : Dag → Table α → α) (g : Dag) :
    g.fold f = f g (g.inner.map fun e => (e.1, e.2.fold f)) := by
  obtain ⟨nodes, edges, sink, nextId, allocated⟩ := g
  simp only [fold, inner]
  congr 1
  induction nodes with
  | nil => rfl
  | cons n rest ih =>
    obtain ⟨id, kind, note⟩ := n
    cases kind <;> simp [foldNodes, foldNode, foldOperator, Operator.inner?, ih]

theorem sizeOf_lt_of_mem_inner {g h : Dag} {id : Nat} (hm : (id, h) ∈ g.inner) :
    sizeOf h < sizeOf g := by
  simp only [inner, List.mem_filterMap, Option.map_eq_some_iff, Prod.mk.injEq] at hm
  obtain ⟨n, hn, _, hk, _, rfl⟩ := hm
  have hlt := List.sizeOf_lt_of_mem hn
  obtain ⟨nodes, edges, sink, nextId, allocated⟩ := g
  obtain ⟨_, kind, note⟩ := n
  cases kind with
  | primitive p => simp [Operator.inner?] at hk
  | pipeline inputs inner =>
    simp only [Operator.inner?, Option.some.injEq] at hk
    subst hk
    simp only [Graph.mk.sizeOf_spec, Node.mk.sizeOf_spec, Operator.pipeline.sizeOf_spec] at *
    omega

/-- What holds of a graph whenever it holds of all graphs inside holds of every graph. -/
theorem induction {P : Dag → Prop} (step : ∀ g : Dag, (∀ e ∈ g.inner, P e.2) → P g) (g : Dag) :
    P g :=
  step g fun e h => have := sizeOf_lt_of_mem_inner (h : (e.1, e.2) ∈ g.inner); induction step e.2
termination_by sizeOf g

/-! ### Equality -/

/-- Whether every edge of one list is in the other, both ways. -/
def sameEdges (es fs : List Edge) : Bool :=
  es.all fs.contains && fs.all es.contains

mutual

def sameOperator : Operator → Operator → Bool
  | .primitive p, .primitive q => p.same q
  | .pipeline n g, .pipeline m h => n == m && same g h
  | _, _ => false

/-- Whether two graphs are equal: the same operators under the same numbers, the same set of edges
and the same sink, whatever their annotations. -/
def same : Graph Operator → Graph Operator → Bool
  | ⟨nodes, edges, sink, _, _⟩, h =>
    sink == h.sink && sameNodes nodes h.nodes && sameEdges edges h.edges

def sameNodes : List (Node Operator) → List (Node Operator) → Bool
  | [], [] => true
  | m :: ms, n :: ns => sameNode m n && sameNodes ms ns
  | _, _ => false

def sameNode : Node Operator → Node Operator → Bool
  | ⟨id, kind, _⟩, n => id == n.id && sameOperator kind n.kind

end

end Graph

end Dataflow
