/-
**Expressions in generated code.**
-/

import Dataflow.Code.Struct
import Dataflow.Expr.Typing

namespace Dataflow

namespace Literal

/-- A constant in generated code.  The least integer has no spelling of its own, and values that are
not finite come from the library. -/
def code : Literal → String
  | bool b => if b then "true" else "false"
  | int i =>
    if i = Int64.minValue then "(-9223372036854775807L - 1)"
    else Kind.int64.literal (toString i.toInt)
  | float x =>
    if x.isNaN then "std::numeric_limits<double>::quiet_NaN()"
    else if x.isInf then
      (if x < 0 then "-" else "") ++ "std::numeric_limits<double>::infinity()"
    else Kind.float64.literal (Number.Layout.plain.render x)

/-- Whether a constant is spelled by means of `std::numeric_limits`. -/
def needsLimits : Literal → Bool
  | float x => !x.isFinite
  | _ => false

end Literal

namespace Expr

mutual

/-- An expression in generated code; the structs of its tuples are declared. -/
def code (args : List TupleType) : Expr → StateT StructTable (Except Failure) String
  | field arg index => do
    let named ← Outcome.ofOption (.schema (.noSuchMember arg index)) (args[arg]?.bind (·[index]?))
    return s!"a{arg}." ++ named.name
  | literal value => return value.code
  | binary op left right => do
    let l ← left.code args
    let r ← right.code args
    return "(" ++ l ++ " " ++ op.symbol ++ " " ++ r ++ ")"
  | unary op operand => do
    let operand ← operand.code args
    return "(" ++ op.symbol ++ operand ++ ")"
  | tuple items => do
    let types ← inferAll args items
    let parts ← codeAll args items
    let name ← modifyGet (TupleType.declareName (.positional types)).run
    return name ++ "\x7b" ++ ", ".intercalate parts ++ "\x7d"

def codeAll (args : List TupleType) : List Expr → StateT StructTable (Except Failure) (List String)
  | [] => return []
  | e :: rest => do
    let part ← e.code args
    let parts ← codeAll args rest
    return part :: parts

end

end Expr

end Dataflow
