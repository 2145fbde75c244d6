/-
**Columns and annotated fields.**

A column is the identity of a stream of field values: fields of different operators that hold the
same values, position by position, carry the same column.  Columns are numbered from zero, each
graph its own.
-/

import Dataflow.NatSet
import Dataflow.Schema

namespace Dataflow

abbrev Column := Nat

def Column.text (c : Column) : String :=
  "c" ++ toString c

abbrev Columns := NatSet

def Columns.text (cs : Columns) : String :=
  Text.braced (cs.map Column.text)

/-- What is known of the values of a field along the rows: equal ones stand together, they are
monotone, or no two are equal. -/
inductive Property where
  | grouped
  | sorted
  | unique
deriving DecidableEq, Repr

structure Properties where
  grouped : Bool := false
  sorted : Bool := false
  unique : Bool := false
deriving DecidableEq, Repr

namespace Property

def all : List Property := [grouped, sorted, unique]

def name : Property → String
  | grouped => "grouped"
  | sorted => "sorted"
  | unique => "unique"

def ofName? (name : String) : Option Property :=
  all.find? (·.name == name)

end Property

namespace Properties

def has (s : Properties) : Property → Bool
  | .grouped => s.grouped
  | .sorted => s.sorted
  | .unique => s.unique

def ofList (ps : List Property) : Properties where
  grouped := ps.contains .grouped
  sorted := ps.contains .sorted
  unique := ps.contains .unique

def union (s t : Properties) : Properties where
  grouped := s.grouped || t.grouped
  sorted := s.sorted || t.sorted
  unique := s.unique || t.unique

def toList (s : Properties) : List Property :=
  Property.all.filter s.has

@[simp] theorem has_ofList (ps : List Property) (p : Property) :
    (ofList ps).has p = ps.contains p := by
  cases p <;> rfl

@[simp] theorem has_union (s t : Properties) (p : Property) :
    (s.union t).has p = (s.has p || t.has p) := by
  cases p <;> rfl

end Properties

/-- An output field of an operator: its position, name and type, the column that it carries, and
what is known of its values. -/
structure Field where
  position : Nat
  name : String
  type : FieldType
  column : Option Column := none
  properties : Properties := {}

namespace Field

/-- Fields without columns, one per field of a tuple type. -/
def ofTuple (t : TupleType) : List Field :=
  t.mapIdx fun i f => { position := i, name := f.name, type := f.type }

@[simp] theorem length_ofTuple (t : TupleType) : (ofTuple t).length = t.length := by
  simp [ofTuple]

end Field

end Dataflow
