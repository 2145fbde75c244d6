/-
**Operators in documents.**

The configuration of an operator is a set of members of its record.  A member with a default may be
absent; members that the operator does not know are ignored.
-/

import Dataflow.Expr.Document
import Dataflow.Operator.Basic

namespace Dataflow

namespace Json

/-- The member under a key, read by `read?`; `absent` stands for a member that is not there. -/
def member? {α : Type} (j : Json) (key : String) (read? : Json → Option α)
    (absent : Option α := none) : Option α :=
  match j.get? key with
  | some value => read? value
  | none => absent

def nullable? {α : Type} (read? : Json → Option α) : Json → Option (Option α)
  | null => some none
  | j => some <$> read? j

def list? {α : Type} (read? : Json → Option α) (j : Json) : Option (List α) := do
  (← j.array?).mapM read?

end Json

def Aggregate.toJson (a : Aggregate) : Json :=
  .object ((match a.field with
    | some field => [("field", .ofNat field)]
    | none => []) ++ [("func", .string a.fn.name)])

def AggregateFn.ofJson? (j : Json) : Option AggregateFn :=
  j.name?.bind AggregateFn.ofName?

/-- The aggregate that a document gives: an object, or an array of the function and the field. -/
def Aggregate.ofJson? : Json → Option Aggregate
  | .array [fn] => do return ⟨← AggregateFn.ofJson? fn, none⟩
  | .array [fn, field] => do return ⟨← AggregateFn.ofJson? fn, ← field.nullable? Json.nat?⟩
  | .object members => do
    let j := Json.object members
    let fn ← j.member? "func" AggregateFn.ofJson?
    let field ← j.member? "field" (Json.nullable? Json.nat?) (some none)
    return ⟨fn, field⟩
  | _ => none

namespace Primitive

def members : Primitive → List (String × Json)
  | range r =>
    [("from", .int r.start.toInt), ("to", .int r.stop.toInt), ("step", .int r.step.toInt)]
  | constantTuple values => [("values", .array (values.map Literal.toJson))]
  | parameterLookup parameter none => [("parameter_num", .ofNat parameter)]
  | parameterLookup parameter (some type) =>
    [("parameter_num", .ofNat parameter), ("output_type", type.toJson)]
  | rowScan addIndex => [("add_index", .bool addIndex)]
  | filter predicate => [("predicate", predicate.toJson)]
  | map function => [("func", function.toJson)]
  | projection positions => [("positions", .array (positions.map Json.ofNat))]
  | reduce function => [("func", function.toJson)]
  | reduceByKey function => [("func", function.toJson)]
  | groupBy keys aggregates =>
    [("keys", .array (keys.map Json.ofNat)),
      ("aggregates", .array (aggregates.map Aggregate.toJson))]
  | join keys => [("num_keys", .ofNat keys)]
  | cartesian => []
  | partition count key => [("num_partitions", .ofNat count), ("key", .ofNat key)]
  | materializeRowVector => []
  | ensureSingleTuple => []

def ofJson? (tag : Tag) (j : Json) : Option Primitive :=
  match tag with
  | .range => do
    let start ← j.member? "from" Json.int64?
    let stop ← j.member? "to" Json.int64?
    let step ← j.member? "step" Json.int64? (some 1)
    return range ⟨start, stop, step⟩
  | .constantTuple => constantTuple <$> j.member? "values" (Json.list? Literal.ofJson?)
  | .parameterLookup => do
    let parameter ← j.member? "parameter_num" Json.nat?
    let type ← j.member? "output_type" (Json.nullable? TupleType.ofJson?) (some none)
    return parameterLookup parameter type
  | .rowScan => rowScan <$> j.member? "add_index" Json.bool? (some false)
  | .filter => filter <$> j.member? "predicate" Expr.ofJson?
  | .map => map <$> j.member? "func" Expr.ofJson?
  | .projection => projection <$> j.member? "positions" (Json.list? Json.nat?)
  | .reduce => reduce <$> j.member? "func" Expr.ofJson?
  | .reduceByKey => reduceByKey <$> j.member? "func" Expr.ofJson?
  | .groupBy => do
    let keys ← j.member? "keys" (Json.list? Json.nat?)
    let aggregates ← j.member? "aggregates" (Json.list? Aggregate.ofJson?) (some [])
    return groupBy keys aggregates
  | .join => join <$> j.member? "num_keys" Json.nat? (some 1)
  | .cartesian => some cartesian
  | .partition => do
    let count ← j.member? "num_partitions" Json.nat?
    let key ← j.member? "key" Json.nat? (some 0)
    return partition count key
  | .materializeRowVector => some materializeRowVector
  | .ensureSingleTuple => some ensureSingleTuple
  | .pipeline => none

end Primitive

end Dataflow
