/-
**Carrying out primitive operators.**

An operator makes the complete list of its output rows from the complete lists of rows at its
inputs.
-/

import Dataflow.Evaluation.Group
import Dataflow.Expr.Eval
import Dataflow.Value.Typed

namespace Dataflow

/-- The rows of an input, and the type that they were given. -/
structure Stream where
  type : TupleType
  rows : Rows

def Row.field (row : Row) (position : Nat) (fault : ExecutionFault) : Outcome Value :=
  Outcome.ofOption (.execution fault) row[position]?

/-- The items of the array in field 0 of a row, each as a row. -/
def scanRow (addIndex : Bool) (row : Row) : Outcome Rows := do
  let items ← Outcome.ofOption (.execution .notScannable) (row.head?.bind Value.array?)
  return items.mapIdx fun i item =>
    (if addIndex then [.int (Int64.ofNat i)] else []) ++ item.fields

def passes (predicate : Expr) (type : TupleType) (row : Row) : Outcome Bool := do
  let v ← predicate.evalTyped [type] [row]
  Outcome.ofOption (.execution (.predicateResult v.sort)) v.bool?

def filterRows (predicate : Expr) (type : TupleType) (rows : Rows) : Outcome Rows :=
  rows.filterM (passes predicate type)

def projectRow (positions : List Nat) (row : Row) : Outcome Row :=
  positions.mapM fun p => Row.field row p (.missingField p)

/-- Two rows combined by a function; the result is stored at the type of the rows. -/
def combine (function : Expr) (type : TupleType) (acc next : Row) : Outcome Row := do
  let v ← function.evalTyped [type, type] [acc, next]
  return type.store v.fields

/-- Rows combined from the first on; no rows give no row. -/
def reduceRows (function : Expr) (type : TupleType) : Rows → Outcome Rows
  | [] => return []
  | first :: rest => do return [← rest.foldlM (combine function type) first]

/-- Adds a row to its group, where its value fields are combined with those before. -/
def reduceInto (function : Expr) (type : TupleType) (groups : Groups (Value × Row)) (row : Row) :
    Outcome (Groups (Value × Row)) :=
  match row with
  | [] => throw (.execution .noKeyField)
  | key :: values =>
    Groups.update (Row.key [key]) (fun
      | none => return (key, values)
      | some (k, acc) => do return (k, ← combine function type acc values)) groups

/-- The rows of each key, which is field 0, combined by a function of their other fields. -/
def reduceByKeyRows (function : Expr) (type : TupleType) (rows : Rows) : Outcome Rows := do
  let values := TupleType.positional (type.types.drop 1)
  let groups ← rows.foldlM (reduceInto function values) []
  return groups.map fun (_, key, values) => key :: values

def aggregateInto (keys : List Nat) (aggregates : List Aggregate) (type : TupleType)
    (groups : Groups (Row × List Accumulator)) (row : Row) :
    Outcome (Groups (Row × List Accumulator)) := do
  let key ← keys.mapM fun k => Row.field row k (.missingGroupKey k)
  let fresh := aggregates.map fun a =>
    Accumulator.start a ((a.field.bind type.type?).bind FieldType.kind?)
  Groups.update (Row.key key) (fun group => do
    let (first, accumulators) := group.getD (key, fresh)
    let accumulators ← (aggregates.zip accumulators).mapM fun (a, acc) =>
      acc.update (a.field.bind (row[·]?))
    return (first, accumulators)) groups

/-- One row per key: the key, then the aggregates of its rows. -/
def groupRows (keys : List Nat) (aggregates : List Aggregate) (type : TupleType) (rows : Rows) :
    Outcome Rows := do
  let groups ← rows.foldlM (aggregateInto keys aggregates type) []
  return groups.map fun (_, key, accumulators) => key ++ accumulators.map Accumulator.value

/-- The text of the key of a row, which is its first `keys` fields. -/
def joinKey (keys : Nat) (row : Row) : Outcome String :=
  if row.length < keys then throw (.execution (.tooFewKeyFields keys))
  else return Row.key (row.take keys)

/-- The pairs of a left and a right row whose keys agree, by left row and then by right row. -/
def joinRows (keys : Nat) (left right : Rows) : Outcome Rows := do
  let keyed ← right.mapM fun row => return (← joinKey keys row, row)
  let pairs ← left.mapM fun row => do
    let key ← joinKey keys row
    return (keyed.filter (·.1 == key)).map fun (_, other) => row ++ other.drop keys
  return pairs.flatten

def partitionRow (count key : Nat) (row : Row) : Outcome Row := do
  let i ← Outcome.ofOption (.execution .partitionKeyNotInteger) (row[key]?.bind Value.int?)
  return .int (partitionOf count i) :: row

namespace Primitive

def runUnary (p : Primitive) (type : TupleType) (rows : Rows) : Outcome Rows :=
  match p with
  | .rowScan addIndex => do return (← rows.mapM (scanRow addIndex)).flatten
  | .filter predicate => filterRows predicate type rows
  | .map function => rows.mapM fun row => do return (← function.evalTyped [type] [row]).fields
  | .projection positions => rows.mapM (projectRow positions)
  | .reduce function => reduceRows function type rows
  | .reduceByKey function => reduceByKeyRows function type rows
  | .groupBy keys aggregates => groupRows keys aggregates type rows
  | .partition count key => rows.mapM (partitionRow count key)
  | .materializeRowVector => return [[.array (rows.map .tuple)]]
  | .ensureSingleTuple =>
    if rows.length = 1 then return rows else throw (.execution (.notSingle rows.length))
  | _ => return rows

/-- The output rows of a primitive operator.  `parameters` are the rows of the parameters of the
graph that it is in. -/
def run (p : Primitive) (operands : List Stream) (parameters : List Rows) : Outcome Rows :=
  match p, operands with
  | .range r, _ => return r.values.map fun i => [.int i]
  | .constantTuple values, _ => return [values.map Literal.value]
  | .parameterLookup n _, _ => Outcome.ofOption (.execution (.unboundInput n)) parameters[n]?
  | .join keys, [left, right] => joinRows keys left.rows right.rows
  | .cartesian, [left, right] =>
    return left.rows.flatMap fun l => right.rows.map fun r => l ++ r
  | p, [input] => p.runUnary input.type input.rows
  | _, operands => throw (.internal (.operandMissing operands.length))

end Primitive

end Dataflow
