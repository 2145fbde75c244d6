/-
**Expressions in documents.**

An expression is an object with one key, its form: `field`, `literal`, `binary`, `unary` or `tuple`.
-/

import Dataflow.Expr.Basic

namespace Dataflow

/-- A name, given as a string or as an object with only that key and no value. -/
def Json.name? : Json → Option String
  | .string name => some name
  | .object [(name, .null)] => some name
  | _ => none

def BinaryOp.ofJson? (j : Json) : Option BinaryOp :=
  j.name?.bind BinaryOp.ofName?

def UnaryOp.ofJson? (j : Json) : Option UnaryOp :=
  j.name?.bind UnaryOp.ofName?

namespace Literal

def toJson : Literal → Json
  | bool b => .object [("bool", .bool b)]
  | int i => .object [("int", .int i.toInt)]
  | float x => .object [("float", .ofFloat x)]

def ofJson? : Json → Option Literal
  | .object [(tag, payload)] =>
    if tag = "bool" then bool <$> payload.bool?
    else if tag = "int" then int <$> payload.int64?
    else if tag = "float" then float <$> payload.float?
    else none
  | _ => none

end Literal

namespace Expr

mutual

def toJson : Expr → Json
  | field arg index => .object [("field", .object [("arg", .ofNat arg), ("index", .ofNat index)])]
  | literal value => .object [("literal", value.toJson)]
  | binary op left right =>
    .object [("binary",
      .object [("left", left.toJson), ("op", .string op.name), ("right", right.toJson)])]
  | unary op operand =>
    .object [("unary", .object [("expr", operand.toJson), ("op", .string op.name)])]
  | tuple items => .object [("tuple", .array (listToJson items))]

def listToJson : List Expr → List Json
  | [] => []
  | e :: rest => e.toJson :: listToJson rest

end

mutual

def ofJson? : Json → Option Expr
  | .object [(form, payload)] =>
    if form = "field" then do
      let arg ← (payload.get? "arg").bind Json.nat?
      let index ← (payload.get? "index").bind Json.nat?
      return field arg index
    else if form = "literal" then literal <$> Literal.ofJson? payload
    else if form = "binary" then do
      let op ← (payload.get? "op").bind BinaryOp.ofJson?
      let left ← ofMember? "left" payload
      let right ← ofMember? "right" payload
      return binary op left right
    else if form = "unary" then do
      let op ← (payload.get? "op").bind UnaryOp.ofJson?
      let operand ← ofMember? "expr" payload
      return unary op operand
    else if form = "tuple" then tuple <$> ofArray? payload
    else none
  | _ => none

def ofArray? : Json → Option (List Expr)
  | .array items => ofItems? items
  | _ => none

def ofItems? : List Json → Option (List Expr)
  | [] => some []
  | item :: rest => do
    let e ← ofJson? item
    let es ← ofItems? rest
    return e :: es

def ofMember? (key : String) : Json → Option Expr
  | .object members => findMember? key members
  | _ => none

def findMember? (key : String) : List (String × Json) → Option Expr
  | [] => none
  | (k, value) :: rest => if k = key then ofJson? value else findMember? key rest

end

end Expr

end Dataflow
