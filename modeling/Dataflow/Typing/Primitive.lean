/-
**Types of operators.**

The type of an operator's output is determined by its configuration and the types of its inputs.
Inside a pipeline, the types of the pipeline's inputs are those of the parameters.
-/

import Dataflow.Expr.Typing
import Dataflow.Operator.Basic
import Dataflow.Value.Reading

namespace Dataflow

/-- The tuple type of a function's result: a tuple as it is, anything else as the only field. -/
def FieldType.row : FieldType → TupleType
  | tuple fields => fields
  | t => TupleType.positional [t]

def Operator.checkArity (op : Operator) (inputs : List TupleType) : Outcome Unit :=
  if inputs.length = op.inputs then .ok ()
  else .error (.schema (.inputCount op.tag.name op.inputs inputs.length))

/-- Whether a function of two tuples of a type has a result that can be combined further: a tuple of
the same field types, or the only field alone. -/
def foldsTo (expected : TupleType) (result : FieldType) : Bool :=
  (match result with
    | .tuple fields => TupleType.sameShape fields expected
    | _ => false) || expected.types == [result]

def checkFold (expected : TupleType) (result : FieldType) : Outcome Unit :=
  if foldsTo expected result then .ok () else .error (.schema (.foldResult expected result))

/-- The type of a parameter: that of the pipeline's input, or the declared one outside a
pipeline. -/
def lookupType (parameter : Nat) (declared : Option TupleType) (bound : Option (List TupleType)) :
    Outcome TupleType :=
  match bound, declared with
  | some bound, declared => do
    let input ← Outcome.ofOption (.schema (.parameterOutOfRange bound.length parameter))
      bound[parameter]?
    match declared with
    | some declared =>
      if declared.sameShape input then return input
      else throw (.schema (.parameterType declared input))
    | none => return input
  | none, some declared => return declared
  | none, none => throw (.schema (.parameterUntyped parameter))

/-- The type of the items of the array in field 0, each as a tuple. -/
def scanType (addIndex : Bool) (input : TupleType) : Outcome TupleType := do
  let element ← Outcome.ofOption (.schema (.notScannable input))
    ((input.type? 0).bind FieldType.element?)
  return if addIndex then TupleType.concat (.scalar .int64) element.row else element.row

def groupKeyType (input : TupleType) (key : Nat) : Outcome FieldType := do
  let type ← Outcome.ofOption (.schema (.groupKeyOutOfRange key input)) (input.type? key)
  if type.isAtomic then return type else throw (.schema (.groupKeyNotAtomic key type))

/-- The type of an aggregate: counts are integers, all others have the type of their field. -/
def Aggregate.type (input : TupleType) (a : Aggregate) : Outcome FieldType := do
  if a.fn = .count then return .atomic .int64
  let field ← Outcome.ofOption (.schema (.aggregateWithoutField a.fn.name)) a.field
  let type ← Outcome.ofOption (.schema (.aggregateOutOfRange field input)) (input.type? field)
  if type.isNumeric then return type else throw (.schema (.aggregateNotNumeric a.fn.name type))

/-- Checks that key fields are of one atomic type on both sides, from key `k` on. -/
def checkKeys (k : Nat) : (left right : List FieldType) → Outcome Unit
  | l :: left, r :: right => do
    if l ≠ r then throw (.schema (.joinKeyTypes k l r))
    if !l.isAtomic then throw (.schema (.joinKeyNotAtomic k l))
    checkKeys (k + 1) left right
  | _, _ => return ()

/-- The type of the pairs of a join: the left fields, then the right fields behind the keys. -/
def joinType (keys : Nat) (left right : TupleType) : Outcome TupleType := do
  if left.length < keys ∨ right.length < keys then throw (.schema (.joinTooFewFields keys))
  checkKeys 0 (left.types.take keys) (right.types.take keys)
  return TupleType.positional (left.types ++ right.types.drop keys)

def Primitive.unaryType (p : Primitive) (input : TupleType) : Outcome TupleType :=
  match p with
  | .rowScan addIndex => scanType addIndex input
  | .filter predicate => do
    let t ← predicate.infer [input]
    if t.isBool then return input else throw (.schema (.predicateNotBool t))
  | .map function => do
    let t ← function.infer [input]
    return t.row
  | .projection positions => input.select positions
  | .reduce function => do
    checkFold input (← function.infer [input, input])
    return input
  | .reduceByKey function => do
    let key ← Outcome.ofOption (.schema .noKeyField) (input.type? 0)
    if !key.isAtomic then throw (.schema (.keyNotAtomic key))
    let values := TupleType.positional (input.types.drop 1)
    checkFold values (← function.infer [values, values])
    return input
  | .groupBy keys aggregates => do
    let keyTypes ← keys.mapM (groupKeyType input)
    let aggregateTypes ← aggregates.mapM (Aggregate.type input)
    return TupleType.positional (keyTypes ++ aggregateTypes)
  | .partition _ key => do
    let type ← Outcome.ofOption (.schema (.partitionKeyOutOfRange key input)) (input.type? key)
    if type.isInteger then return TupleType.concat (.scalar .int64) input
    else throw (.schema (.partitionKeyNotInteger type))
  | .materializeRowVector => return input.vectorOf
  | _ => return input

/-- The output type of a primitive operator.  `bound` has the types of the inputs of the pipeline
around it, if there is one. -/
def Primitive.outputType (p : Primitive) (inputs : List TupleType)
    (bound : Option (List TupleType)) : Outcome TupleType := do
  (Operator.primitive p).checkArity inputs
  match p, inputs with
  | .range _, _ => return TupleType.scalar .int64
  | .constantTuple values, _ => return TupleType.positional (values.map (.atomic ·.kind))
  | .parameterLookup parameter declared, _ => lookupType parameter declared bound
  | .join keys, [left, right] => joinType keys left right
  | .cartesian, [left, right] => return TupleType.concat left right
  | p, [input] => p.unaryType input
  | p, inputs =>
    throw (.schema (.inputCount p.tag.name p.inputs inputs.length))

end Dataflow
