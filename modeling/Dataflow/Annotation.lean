/-
**Annotation.**

Annotation notes at every operator its output fields with their columns, the columns that it reads
and originates, and the columns of its output that nothing after it reads.  A field that only passes
an input field on carries the column of that field; a field that the operator computes keeps the
column that it had before if its type is still the same, and otherwise gets a new one.
-/

import Dataflow.Typing.Graph

namespace Dataflow

namespace Operator

/-- The input and the position there of the field that the output field at a position passes on;
none for a field that the operator computes.  `left` is the number of fields of input 0. -/
def origin? (op : Operator) (left position : Nat) : Option (Nat × Nat) :=
  match op with
  | .primitive (.filter _) | .primitive .ensureSingleTuple => some (0, position)
  | .primitive (.projection positions) => positions[position]?.map (0, ·)
  | .primitive (.map (.field 0 index)) => if position = 0 then some (0, index) else none
  | .primitive (.map (.tuple items)) =>
    match items[position]? with
    | some (.field 0 index) => some (0, index)
    | _ => none
  | .primitive (.join keys) =>
    some (if position < left then (0, position) else (1, position - left + keys))
  | .primitive .cartesian =>
    some (if position < left then (0, position) else (1, position - left))
  | .primitive (.partition _ _) => if position = 0 then none else some (0, position - 1)
  | .primitive (.groupBy keys _) => keys[position]?.map (0, ·)
  | .primitive (.reduceByKey _) => if position = 0 then some (0, 0) else none
  | _ => none

/-- Whether the fields that an operator passes on keep their properties. -/
def keepsProperties : Operator → Bool
  | .primitive (.filter _) => true
  | .primitive (.projection _) => true
  | .primitive (.map _) => true
  | .primitive .ensureSingleTuple => true
  | _ => false

def givesProperties (op : Operator) (position : Nat) : Properties :=
  match op with
  | .primitive (.range _) => .ofList [.sorted, .unique]
  | .primitive (.rowScan true) => if position = 0 then .ofList [.sorted, .unique] else {}
  | .primitive (.groupBy keys _) =>
    if position < keys.length then .ofList [.grouped, .unique] else {}
  | .primitive (.reduceByKey _) => if position = 0 then .ofList [.unique] else {}
  | _ => {}

/-- The fields that an operator reads, as input and position; none stands for all fields of all
inputs. -/
def readPositions : Operator → Option (List (Nat × Nat))
  | .primitive (.filter e) | .primitive (.map e) | .primitive (.reduce e) =>
    some (e.references.map fun (_, index) => (0, index))
  | .primitive (.reduceByKey e) =>
    some (e.references.map (fun (_, index) => (0, index + 1)) ++ [(0, 0)])
  | .primitive (.groupBy keys aggregates) =>
    some ((keys ++ aggregates.filterMap (·.field)).map (0, ·))
  | .primitive (.join keys) =>
    some ((List.range keys).flatMap fun k => [(0, k), (1, k)])
  | .primitive (.partition _ key) => some [(0, key)]
  | .primitive (.rowScan _) => some [(0, 0)]
  | .primitive .materializeRowVector => none
  | .pipeline _ _ => none
  | _ => some []

def reads (op : Operator) (inputs : List (List Field)) : Columns :=
  NatSet.ofList <| match op.readPositions with
    | some positions => positions.filterMap fun (input, index) =>
        (inputs[input]?.bind (·[index]?)).bind (·.column)
    | none => inputs.flatten.filterMap (·.column)

/-- The input field that the output field at a position passes on, if that has a column. -/
def source? (op : Operator) (inputs : List (List Field)) (position : Nat) : Option Field := do
  let (input, index) ← op.origin? (inputs.head?.getD []).length position
  (inputs[input]?.bind (·[index]?)).filter (·.column.isSome)

end Operator

/-- The fields of an operator as far as they have their columns, the columns that it originates, and
the number of columns that were given out. -/
structure Assignment where
  fields : List Field
  writes : Columns
  allocated : Nat

/-- Gives the next field its column: that of the field that it passes on, the one that it had
before, or a new one. -/
def Assignment.extend (op : Operator) (inputs : List (List Field)) (previous : List Field)
    (a : Assignment) (field : Field) : Assignment :=
  let given := op.givesProperties field.position
  match op.source? inputs field.position with
  | some source =>
    let kept := if op.keepsProperties then source.properties else {}
    { a with
      fields := a.fields ++ [{ field with column := source.column, properties := kept.union given }]
        }
  | none =>
    let old := (previous[field.position]?.filter (·.type = field.type)).bind (·.column)
    let column := old.getD a.allocated
    { fields := a.fields ++ [{ field with column := some column, properties := given }]
      writes := NatSet.insert column a.writes
      allocated := if old.isSome then a.allocated else a.allocated + 1 }

namespace Graph

def inputFields (g : Dag) (id : Nat) : List (List Field) :=
  (g.producers id).map fun p => ((g.node? p).map (·.note.fields)).getD []

/-- Annotates one operator after its producers, and the graph inside it. -/
def annotateNode (types : GraphTypes) (inner : Table (GraphTypes → Except Interruption Dag))
    (g : Dag) (id : Nat) : Except Interruption Dag :=
  match g.node? id, types.outputs.get? id with
  | some node, some output =>
    let inputs := g.inputFields id
    let assigned := (Field.ofTuple output).foldl
      (Assignment.extend node.kind inputs node.note.fields) ⟨[], [], g.allocated⟩
    let noted := { g.modify id (fun n => { n with note := { n.note with
      fields := assigned.fields
      reads := node.kind.reads inputs
      writes := assigned.writes } }) with allocated := assigned.allocated }
    match inner.get? id, Table.get? types.inner id with
    | some annotate, some innerTypes =>
      let place (h : Dag) := noted.modify id fun n => { n with kind := n.kind.withInner h }
      match annotate innerTypes with
      | .ok h => .ok (place h)
      | .error stop => .error ⟨stop.failure, place stop.reached⟩
    | _, _ => .ok noted
  | _, _ => .error ⟨.internal (.untyped id), g⟩

/-- What is read after each operator, as far as it was found. -/
structure Liveness where
  graph : Dag
  after : Table Columns := []

/-- Notes the dead columns of one operator before those of its producers: all that neither a
consumer reads nor anything after it. -/
def markNode (l : Liveness) (id : Nat) : Except Interruption Liveness :=
  let g := l.graph
  let consumers := g.consumers id
  match consumers.find? fun c => !g.contains c with
  | some missing => .error ⟨.invalidParameter (.unknownOperator missing), g⟩
  | none =>
    let own := ((g.node? id).map (·.note.fields)).getD [] |>.filterMap (·.column)
    let read := consumers.flatMap fun c =>
      ((g.node? c).map (·.note.reads)).getD [] ++ (l.after.get? c).getD []
    let live := NatSet.ofList (read ++ if g.sink = some id then own else [])
    let dead := NatSet.ofList (own.filter fun c => !live.contains c)
    .ok ⟨g.modify id (fun n => { n with note := { n.note with dead } }), l.after.put id live⟩

def annotateWith : Dag → GraphTypes → Except Interruption Dag :=
  fold fun g inner types =>
    match g.order with
    | .error failure => .error ⟨failure, g⟩
    | .ok order => do
      let g ← order.foldlM (annotateNode types inner) g
      let marked ← order.reverse.foldlM markNode ⟨g, []⟩
      return marked.graph

/-- Annotates a graph and the graphs inside it.  A graph that has no types is left as it was. -/
def annotate (g : Dag) : Except Interruption Dag :=
  match g.types with
  | .error failure => .error ⟨failure, g⟩
  | .ok types => g.annotateWith types

/-- Removes all annotations; columns that were given out stay given out. -/
def clearNotes : Dag → Dag :=
  fold fun g inner => { g.withInner inner with
    nodes := (g.withInner inner).nodes.map fun n => { n with note := {} } }

end Graph

end Dataflow
