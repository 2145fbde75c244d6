/-
**Plans.**

A plan takes one tuple per input and gives a list of tuples.  The plan of a graph has the parameters
of its look-ups as inputs, and gives the rows of the sink, or the items of the array if the sink is
a row vector.
-/

import Dataflow.Evaluation.Graph
import Dataflow.Graph.Validity
import Dataflow.Json.Source

namespace Dataflow

/-- What can be executed: the types of the inputs, and the tuples that it makes of them. -/
structure Plan where
  inputTypes : List TupleType
  run : List Tuple → Outcome (List Value)

namespace Graph

/-- Adds the type that a look-up declares to those of the look-ups before it. -/
def declareInput (declared : Table TupleType) (node : Node Operator) :
    Outcome (Table TupleType) :=
  match node.kind with
  | .primitive (.parameterLookup parameter type) => do
    let type ← Outcome.ofOption (.invalidParameter (.undeclaredType node.name)) type
    match declared.get? parameter with
    | some earlier =>
      if earlier.sameShape type then return declared
      else throw (.invalidParameter (.conflictingTypes parameter earlier type))
    | none => return declared.put parameter type
  | _ => return declared

/-- The types of the parameters of a graph, which are numbered from 0 without gaps. -/
def inputTypesOf (g : Dag) : Outcome (List TupleType) := do
  let declared ← g.nodes.foldlM declareInput []
  match (List.range declared.length).find? fun n => (declared.get? n).isNone with
  | some missing => throw (.invalidParameter (.gapInInputs missing))
  | none => return declared.map (·.2)

/-- Checks the types of the inputs of a plan, from input `i` on. -/
def checkInputs (i : Nat) : List Tuple → List TupleType → Outcome Unit
  | input :: inputs, type :: types => do
    if !input.type.sameShape type then throw (.invalidParameter (.inputType i input.type type))
    checkInputs (i + 1) inputs types
  | _, _ => return ()

/-- The items of the only row vector among some rows, each as a tuple. -/
def vectorItems : Rows → Outcome (List Value)
  | [row] => do
    let items ← Outcome.ofOption (.execution .notRowVector) (row.head?.bind Value.array?)
    return items.map fun item => .tuple item.fields
  | rows => throw (.execution (.notOneRowVector rows.length))

def plan (g : Dag) : Outcome Plan := do
  g.validate
  let types ← g.types
  let sink ← Outcome.ofOption (.invalidParameter .noSink) g.sink
  let output ← types.output sink
  let inputTypes ← g.inputTypesOf
  let run (inputs : List Tuple) : Outcome (List Value) := do
    if inputs.length ≠ inputTypes.length then
      throw (.invalidParameter (.inputCount inputTypes.length inputs.length))
    checkInputs 0 inputs inputTypes
    let rows ← g.evaluateWith types (inputs.map fun input => [input.values])
    if output.rowVector?.isSome then vectorItems rows else return rows.map .tuple
  return ⟨inputTypes, run⟩

end Graph

/-- Plans under numbers, counted from 0, and how many there may be. -/
structure PlanRegistry where
  plans : List Plan := []
  limit : Option Nat := none

namespace PlanRegistry

def register (r : PlanRegistry) (plan : Plan) : Outcome (Nat × PlanRegistry) := do
  match r.limit with
  | some limit => if limit ≤ r.plans.length then throw (.invalidParameter (.registryFull limit))
  | none => pure ()
  return (r.plans.length, { r with plans := r.plans ++ [plan] })

def get (r : PlanRegistry) (id : Nat) : Outcome Plan :=
  Outcome.ofOption (.invalidParameter (.unknownPlan id)) r.plans[id]?

/-- The inputs of a plan from a document, an array with one tuple per input. -/
def readInputs (text : String) (types : List TupleType) : Outcome (List Tuple) := do
  let document ← Outcome.ofOption (.parse .malformedInputs) (Json.parse? text)
  let items ← Outcome.ofOption (.parse .inputsNotArray) document.array?
  if items.length ≠ types.length then
    throw (.invalidParameter (.inputCount types.length items.length))
  (items.zip types).mapM fun (item, type) => Tuple.read type item

/-- Executes a plan on inputs in a document; so is the result. -/
def execute (r : PlanRegistry) (id : Nat) (inputs : String) : Outcome String := do
  let plan ← r.get id
  let result ← plan.run (← readInputs inputs plan.inputTypes)
  return (Json.array (result.map Value.toJson)).compact

def text (r : PlanRegistry) : String :=
  s!"PlanRegistry \x7b plans: {r.plans.length}, max_plans: " ++ (match r.limit with
    | some limit => s!"Some({limit})"
    | none => "None") ++ " \x7d"

end PlanRegistry

end Dataflow
