/-
**Structs.**

Every tuple type is a C struct in generated code.  Structs are numbered in the order in which they
are complete, the structs of nested tuples before those that hold them; types whose structs have the
same members share one.
-/

import Dataflow.Schema

namespace Dataflow

/-- A struct: its members between braces, and the structs that they refer to. -/
structure Struct where
  body : String
  needs : List Nat

abbrev StructTable := List Struct

def structName (number : Nat) : String :=
  "tuple_" ++ toString number

namespace StructTable

/-- The number of the struct with a body, which is declared if there is none yet. -/
def enter (body : String) (needs : List Nat) : StateM StructTable Nat := do
  let table ← get
  match table.findIdx? (·.body == body) with
  | some number => return number
  | none =>
    set (table ++ [⟨body, needs⟩])
    return table.length

end StructTable

mutual

/-- The C type of a field, and the structs that it refers to. -/
def FieldType.spell : FieldType → StateM StructTable (String × List Nat)
  | .atomic kind => return (kind.cType, [])
  | .array element => do
    let (type, needs) ← element.spell
    return ("Array<" ++ type ++ ">", needs)
  | .tuple fields => do
    let (members, needs) ← FieldType.spellMembers fields
    let number ← StructTable.enter ("\x7b " ++ members ++ "\x7d") needs
    return (structName number, [number])

/-- Fields as members of a struct, and the structs that they refer to. -/
def FieldType.spellMembers : List (Named FieldType) → StateM StructTable (String × List Nat)
  | [] => return ("", [])
  | ⟨name, type⟩ :: rest => do
    let (type, needs) ← type.spell
    let (members, more) ← FieldType.spellMembers rest
    return (type ++ " " ++ name ++ "; " ++ members, needs ++ more)

end

namespace TupleType

def structBody (t : TupleType) : StateM StructTable (String × List Nat) := do
  let (members, needs) ← FieldType.spellMembers t
  return ("\x7b " ++ members ++ "\x7d", needs)

def declare (t : TupleType) : StateM StructTable Nat := do
  let (body, needs) ← t.structBody
  StructTable.enter body needs

def declareName (t : TupleType) : StateM StructTable String :=
  return structName (← t.declare)

end TupleType

namespace StructTable

def declaration (number : Nat) (s : Struct) : String :=
  "typedef struct " ++ s.body ++ " " ++ structName number ++ ";\n"

def render (table : StructTable) : String :=
  String.join (table.mapIdx declaration)

/-- The structs that some structs need, those included.  A struct only refers to earlier ones, so
they are gone through backwards. -/
def closure (table : StructTable) (roots : List Nat) : List Nat :=
  (table.zipIdx.reverse).foldl (fun needed (s, number) =>
    if number ∈ needed then needed ++ s.needs else needed) roots

/-- The declarations that the structs of some names need, in order; other names are ignored. -/
def renderNeeded (table : StructTable) (names : List String) : String :=
  let roots := (List.range table.length).filter (names.contains <| structName ·)
  let needed := table.closure roots
  String.join ((table.zipIdx.filter (needed.contains ·.2)).map fun (s, number) =>
    declaration number s)

end StructTable

end Dataflow
