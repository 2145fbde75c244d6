/-
**Values.**

The values that flow through a plan: truth values, integers of 64 bits, doubles, and tuples and
arrays of values.  The type of a field decides which of them it holds; a value itself does not know
the width of its integers.
-/

import Dataflow.Json.Printer

namespace Dataflow

inductive Value where
  | bool (b : Bool)
  | int (i : Int64)
  | float (x : Float)
  | tuple (fields : List Value)
  | array (items : List Value)

abbrev Row := List Value

abbrev Rows := List Row

namespace Value

/-- The name of a sort of values in messages. -/
def sort : Value → String
  | bool _ => "bool"
  | int _ => "int"
  | float _ => "float"
  | tuple _ => "tuple"
  | array _ => "array"

def bool? : Value → Option Bool
  | bool b => some b
  | _ => none

def int? : Value → Option Int64
  | int i => some i
  | _ => none

def float? : Value → Option Float
  | float x => some x
  | int i => some (Number.ofInteger i.toInt)
  | _ => none

def array? : Value → Option (List Value)
  | array items => some items
  | _ => none

/-- The fields of a function's result: those of a tuple, or one field for any other value. -/
def fields : Value → Row
  | tuple fields => fields
  | v => [v]

mutual

def toJson : Value → Json
  | bool b => .bool b
  | int i => .int i.toInt
  | float x => .ofFloat x
  | tuple fields => .array (listToJson fields)
  | array items => .array (listToJson items)

def listToJson : List Value → List Json
  | [] => []
  | v :: rest => v.toJson :: listToJson rest

end

def text (v : Value) : String :=
  v.toJson.compact

mutual

/-- Whether two values are equal, doubles compared as numbers: a zero equals the negative zero, and
not a number equals nothing. -/
def same : Value → Value → Bool
  | bool a, bool b => a == b
  | int a, int b => a == b
  | float a, float b => a == b
  | tuple as, tuple bs => sameList as bs
  | array as, array bs => sameList as bs
  | _, _ => false

def sameList : List Value → List Value → Bool
  | [], [] => true
  | a :: as, b :: bs => same a b && sameList as bs
  | _, _ => false

end

instance : BEq Value := ⟨same⟩

@[simp] theorem listToJson_eq_map (vs : List Value) : listToJson vs = vs.map toJson := by
  induction vs with
  | nil => rfl
  | cons v vs ih => simp [listToJson, ih]

end Value

/-- The text by which rows are grouped and matched: their values as one document. -/
def Row.key (values : Row) : String :=
  (Json.array (values.map Value.toJson)).compact

end Dataflow
