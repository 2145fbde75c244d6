/-
**Graphs in documents.**

A document is an object with a list of records under `dag` and the number of the sink under `sink`.
Each record has a number, a tag, the numbers of the producers of its inputs in the order of the
slots, and the configuration of its operator.  The graph of a pipeline is a document of its own
inside the record of the pipeline.
-/

import Dataflow.Catalog
import Dataflow.Graph.Edit
import Dataflow.Json.Source
import Dataflow.Operator.Document

namespace Dataflow

namespace Graph

/-! ### Writing -/

/-- The record of an operator; `inner` holds the documents of the graphs inside. -/
def record (g : Dag) (inner : Table Json) (node : Node Operator) : Json :=
  let configuration := match node.kind with
    | .primitive p => p.members
    | .pipeline inputs _ =>
      [("num_inputs", .ofNat inputs), ("inner_dag", (inner.get? node.id).getD .null)]
  .ofEntries ([("id", .ofNat node.id), ("op", .string node.kind.tag.name),
    ("predecessors", .array ((g.producers node.id).map Json.ofNat))] ++ configuration)

def toJson : Dag → Outcome Json :=
  fold fun g inner => do
    let order ← g.order
    let written := order.filterMap g.node?
    let inner ← (written.filterMap fun n => (inner.get? n.id).map (n.id, ·)).mapM fun (id, json) =>
      return (id, ← json)
    return .object [("dag", .array (written.map (g.record inner))),
      ("sink", .ofOption .ofNat g.sink)]

def write (g : Dag) : Outcome String :=
  return (← g.toJson).pretty

/-! ### Reading -/

def idOfJson (what : String) (j : Json) : Outcome Nat :=
  Outcome.ofOption (.parse (.notAnId what j)) j.nat?

/-- The operator that a tag and a record give; `inner` is what the record has as a graph inside. -/
def build (catalog : Catalog) (tag : String) (record : Json) (inner : Option (Outcome Dag)) :
    Outcome Operator := do
  let sort ← Outcome.ofOption (.unknownOperator tag) (catalog.tag? tag)
  let operator ← (match sort with
    | .pipeline => do
      let inputs ← Outcome.ofOption (.parse .noInputCount) (record.member? "num_inputs" Json.nat?)
      let inner ← Outcome.ofOption (.parse .noInnerGraph) inner
      return .pipeline inputs (← inner)
    | sort =>
      Outcome.ofOption (.parse .invalidConfiguration)
        (.primitive <$> Primitive.ofJson? sort record) : Outcome Operator).mapError
    (Failure.inRecord tag)
  operator.check
  return operator

/-- What a record says: the number of an operator, the operator, and its producers. -/
structure Entry where
  id : Nat
  operator : Operator
  producers : List Nat

/-- Reads the record at a place of the list; `taken` are the numbers of the ones before it. -/
def readRecord (catalog : Catalog) (taken : List Nat) (index : Nat) (record : Json)
    (inner : Option (Outcome Dag)) : Outcome Entry := do
  match record with
  | .object _ => pure ()
  | _ => throw (.parse (.recordNotObject index))
  let id ← match record.get? "id" with
    | none => pure index
    | some value => idOfJson "id" value
  if id ∈ taken then throw (.parse (.duplicateId id))
  let tag ← Outcome.ofOption (.parse (.noTag index)) ((record.get? "op").bind Json.string?)
  let producers ← match record.get? "predecessors" with
    | none => pure []
    | some (.array items) => items.mapM (idOfJson "predecessor")
    | some _ => throw (.parse (.predecessorsNotArray id))
  let operator ← build catalog tag record inner
  return ⟨id, operator, producers⟩

def readRecords (catalog : Catalog) (before : List Entry) :
    List (Json × Option (Outcome Dag)) → Outcome (List Entry)
  | [] => return before
  | (record, inner) :: rest => do
    let entry ← readRecord catalog (before.map (·.id)) before.length record inner
    readRecords catalog (before ++ [entry]) rest

/-- Connects an operator to its producers, from slot 0 on. -/
def wire (g : Dag) (entry : Entry) : Outcome Dag := do
  match entry.producers.find? fun p => !g.contains p with
  | some unknown => throw (.parse (.unknownPredecessor entry.id unknown))
  | none => pure ()
  let node ← g.get entry.id
  if entry.producers.length ≠ node.kind.inputs then
    throw (.invalidSlot (.predecessorCount node.name node.kind.inputs entry.producers.length))
  (entry.producers.mapIdx fun slot source => Edge.mk source 0 entry.id slot).foldlM connect g

def lastOperators (g : Dag) : List Nat :=
  g.ids.filter fun id => !g.edges.any (·.source == id)

/-- The sink of a graph: the one that is named, none if that is null, and else the only operator
without consumers. -/
def readSink (g : Dag) : Option Json → Outcome (Option Nat)
  | some .null => return none
  | some value => do
    let id ← idOfJson "sink" value
    if g.contains id then return some id else throw (.parse (.unknownSink id))
  | none =>
    match g.lastOperators with
    | [id] => return some id
    | [] => throw (.parse .noLastOperator)
    | ids => throw (.parse (.manyLastOperators ids.length))

/-- The graph of some records, each with what it has as a graph inside, and of the sink. -/
def assemble (catalog : Catalog) (records : Option (List (Json × Option (Outcome Dag))))
    (sink : Option Json) : Outcome Dag := do
  let records ← Outcome.ofOption (.parse .noOperatorList) records
  let entries ← readRecords catalog [] records
  let g ← entries.foldlM (fun g entry => g.addAt entry.id entry.operator) empty
  let g ← entries.foldlM wire g
  return { g with sink := ← g.readSink sink }

mutual

def ofJson (catalog : Catalog) : Json → Outcome Dag
  | .object members =>
    assemble catalog (recordsOf catalog members) ((members.find? (·.1 == "sink")).map (·.2))
  | _ => assemble catalog none none

def recordsOf (catalog : Catalog) : List (String × Json) →
    Option (List (Json × Option (Outcome Dag)))
  | [] => none
  | (key, value) :: rest => if key = "dag" then recordsIn catalog value else recordsOf catalog rest

def recordsIn (catalog : Catalog) : Json → Option (List (Json × Option (Outcome Dag)))
  | .array items => some (withInnerOf catalog items)
  | _ => none

/-- Records, each with the graph that it has inside. -/
def withInnerOf (catalog : Catalog) : List Json → List (Json × Option (Outcome Dag))
  | [] => []
  | record :: rest => (record, innerOf catalog record) :: withInnerOf catalog rest

def innerOf (catalog : Catalog) : Json → Option (Outcome Dag)
  | .object members => innerAmong catalog members
  | _ => none

def innerAmong (catalog : Catalog) : List (String × Json) → Option (Outcome Dag)
  | [] => none
  | (key, value) :: rest =>
    if key = "inner_dag" then some (ofJson catalog value) else innerAmong catalog rest

end

def read (catalog : Catalog) (text : String) : Outcome Dag := do
  let document ← Outcome.ofOption (.parse .malformedGraph) (Json.parse? text)
  ofJson catalog document

end Graph

def Operator.ofJson (catalog : Catalog) (tag : String) (configuration : Json) : Outcome Operator :=
  Graph.build catalog tag configuration (Graph.innerOf catalog configuration)

end Dataflow
