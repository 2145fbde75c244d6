/-
**Values of a type.**

A field type admits certain values, and storing a value into a field of a type converts it the way a
C field of that type does: integers are cut to the width of the field, integers become doubles in
floating fields, and fields of single precision round.  A value that does not have the shape of the
type is stored unchanged.
-/

import Dataflow.Schema
import Dataflow.Value.Basic

namespace Dataflow

def Kind.admits (k : Kind) : Value → Bool
  | .bool _ => k = .bool
  | .int i => k.holds i
  | .float _ => k.isFloat
  | .tuple _ => false
  | .array _ => false

/-- A double as stored in a field of a floating kind. -/
def Kind.storeFloat (k : Kind) (x : Float) : Float :=
  if k = .float32 then Number.toSingle x else x

def Kind.store (k : Kind) : Value → Value
  | .int i =>
    if k.isInteger then .int (k.wrap i)
    else if k.isFloat then .float (k.storeFloat (Number.ofInteger i.toInt))
    else .int i
  | .float x => .float (k.storeFloat x)
  | v => v

namespace FieldType

mutual

def admits : FieldType → Value → Bool
  | atomic k, v => k.admits v
  | tuple fields, .tuple values => admitsAll fields values
  | array element, .array items => items.all (admits element)
  | _, _ => false

/-- Whether there is one value per field, each of the type of its field. -/
def admitsAll : List (Named FieldType) → List Value → Bool
  | [], [] => true
  | ⟨_, type⟩ :: fields, v :: values => admits type v && admitsAll fields values
  | _, _ => false

end

mutual

def store : FieldType → Value → Value
  | atomic k, v => k.store v
  | tuple fields, .tuple values =>
    .tuple (if values.length = fields.length then storeAll fields values else values)
  | array element, .array items => .array (items.map (store element))
  | _, v => v

def storeAll : List (Named FieldType) → List Value → List Value
  | ⟨_, type⟩ :: fields, v :: values => store type v :: storeAll fields values
  | _, _ => []

end

end FieldType

namespace TupleType

/-- Whether a row has one value per field, each of the type of its field. -/
def admits (t : TupleType) (row : Row) : Bool :=
  FieldType.admitsAll t row

/-- A row as stored at a tuple type; a row with another number of fields is left alone. -/
def store (t : TupleType) (row : Row) : Row :=
  if row.length = t.length then FieldType.storeAll t row else row

theorem length_eq_of_admits {t : TupleType} {row : Row} (h : t.admits row) :
    row.length = t.length := by
  induction t generalizing row with
  | nil => cases row with
    | nil => rfl
    | cons _ _ => simp [admits, FieldType.admitsAll] at h
  | cons field fields ih => cases row with
    | nil => simp [admits, FieldType.admitsAll] at h
    | cons v values =>
      simp only [admits, FieldType.admitsAll, Bool.and_eq_true] at h
      simpa using ih h.2

theorem length_storeAll {fields : List (Named FieldType)} {values : List Value}
    (h : values.length = fields.length) :
    (FieldType.storeAll fields values).length = fields.length := by
  induction fields generalizing values with
  | nil => cases values <;> simp [FieldType.storeAll]
  | cons field fields ih => cases values with
    | nil => simp at h
    | cons v values => simpa [FieldType.storeAll] using ih (by simpa using h)

@[simp] theorem length_store (t : TupleType) (row : Row) : (t.store row).length = row.length := by
  unfold store
  split
  · next h => rw [length_storeAll h, h]
  · rfl

end TupleType

end Dataflow
