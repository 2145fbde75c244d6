/-
**Typed tuples, and reading them from documents.**

A tuple carries its type, and every tuple is made by a check: of given values, or of a document that
is read against the type.
-/

import Dataflow.Failure
import Dataflow.Value.Typed

namespace Dataflow

def Kind.ofTag (tag : String) : Outcome Kind :=
  Outcome.ofOption (.parse (.unknownKind tag)) (Kind.ofTag? tag)

/-- A tuple type with distinct field names. -/
def TupleType.checked (t : TupleType) : Outcome TupleType :=
  match t.firstRepeat? [] with
  | some name => .error (.schema (.duplicateName name))
  | none => .ok t

/-- The fields at the given positions, named by position. -/
def TupleType.select (t : TupleType) (positions : List Nat) : Outcome TupleType := do
  let types ← positions.mapM fun p =>
    Outcome.ofOption (.schema (.positionOutOfRange p t)) (t.type? p)
  return positional types

def Kind.read (k : Kind) (j : Json) : Outcome Value :=
  let mismatch := Failure.parse (.valueMismatch (.atomic k) j)
  if k = .bool then do
    let b ← Outcome.ofOption mismatch j.bool?
    return .bool b
  else if k.isInteger then do
    let i ← Outcome.ofOption mismatch j.int64?
    if k.holds i then return .int i else throw (.parse (.outOfBounds i k))
  else do
    let x ← Outcome.ofOption mismatch j.float?
    return .float x

namespace FieldType

mutual

def read : FieldType → Json → Outcome Value
  | atomic k, j => k.read j
  | tuple fields, j => do
    let items ← Outcome.ofOption (.parse (.tupleMismatch fields j)) j.array?
    if items.length ≠ fields.length then throw (.parse (.fieldCount fields items.length))
    let values ← readAll fields items
    return .tuple values
  | array element, j => do
    let items ← Outcome.ofOption (.parse (.valueMismatch (array element) j)) j.array?
    let values ← items.mapM (read element)
    return .array values

def readAll : List (Named FieldType) → List Json → Outcome (List Value)
  | ⟨_, type⟩ :: fields, item :: items => do
    let value ← read type item
    let values ← readAll fields items
    return value :: values
  | _, _ => return []

end

end FieldType

def TupleType.read (t : TupleType) (j : Json) : Outcome Row := do
  let value ← (FieldType.tuple t).read j
  return value.fields

structure Tuple where
  type : TupleType
  values : Row

namespace Tuple

/-- The first field whose value is not of its type. -/
def firstMisfit? : TupleType → Row → Option (Value × Named FieldType)
  | field :: fields, v :: values =>
    if field.type.admits v then firstMisfit? fields values else some (v, field)
  | _, _ => none

/-- The tuple of some values, if there is one per field and each is of the type of its field. -/
def make (type : TupleType) (values : Row) : Outcome Tuple :=
  if values.length ≠ type.length then .error (.schema (.valueCount type values.length))
  else match firstMisfit? type values with
    | some (value, field) => .error (.schema (.valueType value field))
    | none => .ok ⟨type, values⟩

def read (type : TupleType) (j : Json) : Outcome Tuple := do
  let values ← type.read j
  return ⟨type, values⟩

def toJson (t : Tuple) : Json :=
  .array (t.values.map Value.toJson)

def same (s t : Tuple) : Bool :=
  s.type = t.type && Value.sameList s.values t.values

end Tuple

end Dataflow
