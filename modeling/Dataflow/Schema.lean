/-
**Types of fields and tuples.**

A field is atomic, a tuple, or an array of fields of one type; a tuple type lists its fields with
their names, in order.  Types are finite trees, so no type contains itself.
-/

import Dataflow.Json.Basic
import Dataflow.Kind

namespace Dataflow

structure Named (τ : Type) where
  name : String
  type : τ
deriving DecidableEq, Repr

inductive FieldType where
  | atomic (kind : Kind)
  | tuple (fields : List (Named FieldType))
  | array (element : FieldType)
deriving Repr

/-- The type of a tuple: its fields in order. -/
abbrev TupleType := List (Named FieldType)

namespace FieldType

/-! ### Equality -/

mutual

def decEq : (s t : FieldType) → Decidable (s = t)
  | atomic j, atomic k =>
    if h : j = k then isTrue (h ▸ rfl) else isFalse fun e => h (FieldType.atomic.inj e)
  | tuple fs, tuple gs =>
    match decEqFields fs gs with
    | isTrue h => isTrue (h ▸ rfl)
    | isFalse h => isFalse fun e => h (FieldType.tuple.inj e)
  | array s, array t =>
    match decEq s t with
    | isTrue h => isTrue (h ▸ rfl)
    | isFalse h => isFalse fun e => h (FieldType.array.inj e)
  | atomic _, tuple _ => isFalse nofun
  | atomic _, array _ => isFalse nofun
  | tuple _, atomic _ => isFalse nofun
  | tuple _, array _ => isFalse nofun
  | array _, atomic _ => isFalse nofun
  | array _, tuple _ => isFalse nofun

def decEqFields : (fs gs : List (Named FieldType)) → Decidable (fs = gs)
  | [], [] => isTrue rfl
  | [], _ :: _ => isFalse nofun
  | _ :: _, [] => isFalse nofun
  | ⟨m, s⟩ :: fs, ⟨n, t⟩ :: gs =>
    if hn : m = n then
      match decEq s t, decEqFields fs gs with
      | isTrue ht, isTrue hr => isTrue (by rw [hn, ht, hr])
      | isFalse ht, _ => isFalse fun e => ht (Named.mk.inj (List.cons.inj e).1).2
      | _, isFalse hr => isFalse fun e => hr (List.cons.inj e).2
    else isFalse fun e => hn (Named.mk.inj (List.cons.inj e).1).1

end

instance : DecidableEq FieldType := decEq

/-! ### Views -/

def kind? : FieldType → Option Kind
  | atomic k => some k
  | _ => none

def element? : FieldType → Option FieldType
  | array e => some e
  | _ => none

def isBool (t : FieldType) : Bool :=
  t = atomic .bool

def isInteger (t : FieldType) : Bool :=
  t.kind?.any Kind.isInteger

def isNumeric (t : FieldType) : Bool :=
  t.kind?.any Kind.isNumeric

def isAtomic (t : FieldType) : Bool :=
  t.kind?.isSome

/-! ### Text -/

mutual

def text : FieldType → String
  | atomic k => k.tag
  | tuple fs => Text.braced (fieldTexts fs)
  | array e => "array<" ++ e.text ++ ">"

def fieldTexts : List (Named FieldType) → List String
  | [] => []
  | ⟨name, type⟩ :: rest => (name ++ ": " ++ type.text) :: fieldTexts rest

end

/-! ### Documents -/

mutual

def toJson : FieldType → Json
  | atomic k => .object [("atomic", .string k.tag)]
  | tuple fs => .object [("tuple", .array (fieldsToJson fs))]
  | array e => .object [("array", e.toJson)]

def fieldsToJson : List (Named FieldType) → List Json
  | [] => []
  | ⟨name, type⟩ :: rest =>
    .object [("name", .string name), ("type", type.toJson)] :: fieldsToJson rest

end

end FieldType

/-- A kind from a document: its name, or an object with only that key and no value. -/
def Kind.ofJson? : Json → Option Kind
  | .string tag => Kind.ofTag? tag
  | .object [(tag, .null)] => Kind.ofTag? tag
  | _ => none

namespace FieldType

mutual

def ofJson? : Json → Option FieldType
  | .object [(tag, payload)] =>
    if tag = "atomic" then atomic <$> Kind.ofJson? payload
    else if tag = "array" then array <$> ofJson? payload
    else if tag = "tuple" then tuple <$> fieldsOfJson? payload
    else none
  | _ => none

def fieldsOfJson? : Json → Option (List (Named FieldType))
  | .array items => namedItems? items
  | _ => none

def namedItems? : List Json → Option (List (Named FieldType))
  | [] => some []
  | item :: rest => do
    let field ← namedOfJson? item
    let fields ← namedItems? rest
    return field :: fields

/-- A named type: an object with its name and type, or an array of the two. -/
def namedOfJson? : Json → Option (Named FieldType)
  | .object members => do
    let name ← ((members.find? (·.1 == "name")).map (·.2)).bind Json.string?
    let type ← typeMember? members
    return ⟨name, type⟩
  | .array [name, type] => do
    let name ← name.string?
    let type ← ofJson? type
    return ⟨name, type⟩
  | _ => none

def typeMember? : List (String × Json) → Option FieldType
  | [] => none
  | (key, value) :: rest => if key = "type" then ofJson? value else typeMember? rest

end

end FieldType

namespace TupleType

def types (t : TupleType) : List FieldType :=
  t.map (·.type)

def names (t : TupleType) : List String :=
  t.map (·.name)

def type? (t : TupleType) (i : Nat) : Option FieldType :=
  t[i]?.map (·.type)

/-- Named after their positions, `v0`, `v1`, …, starting at `i`. -/
def positionalFrom (i : Nat) : List FieldType → TupleType
  | [] => []
  | type :: rest => ⟨"v" ++ toString i, type⟩ :: positionalFrom (i + 1) rest

/-- The tuple type whose fields are named `v0`, `v1`, …. -/
def positional (types : List FieldType) : TupleType :=
  positionalFrom 0 types

/-- The tuple type with one atomic field. -/
def scalar (kind : Kind) : TupleType :=
  positional [.atomic kind]

/-- The first name that an earlier field has too, given the names seen before. -/
def firstRepeat? (seen : List String) : TupleType → Option String
  | [] => none
  | ⟨name, _⟩ :: rest =>
    if name ∈ seen then some name else firstRepeat? (name :: seen) rest

def text (t : TupleType) : String :=
  Text.braced (FieldType.fieldTexts t)

def toJson (t : TupleType) : Json :=
  .array (FieldType.fieldsToJson t)

def ofJson? (j : Json) : Option TupleType :=
  FieldType.fieldsOfJson? j

/-- Whether two tuple types have the same field types in the same order, whatever their names. -/
def sameShape (s t : TupleType) : Bool :=
  s.types = t.types

/-- The fields of two tuple types side by side, named by position. -/
def concat (s t : TupleType) : TupleType :=
  positional (s.types ++ t.types)

/-- The element type of a row vector, which is a tuple with one field, an array. -/
def rowVector? : TupleType → Option FieldType
  | [⟨_, .array element⟩] => some element
  | _ => none

def vectorOf (t : TupleType) : TupleType :=
  positional [.array (.tuple t)]

@[simp] theorem types_positionalFrom (i : Nat) (ts : List FieldType) :
    types (positionalFrom i ts) = ts := by
  induction ts generalizing i with
  | nil => rfl
  | cons t ts ih =>
    have := ih (i + 1)
    simp_all [positionalFrom, types]

@[simp] theorem types_positional (ts : List FieldType) : types (positional ts) = ts :=
  types_positionalFrom 0 ts

@[simp] theorem types_concat (s t : TupleType) : types (concat s t) = s.types ++ t.types := by
  simp [concat]

end TupleType

end Dataflow
