/-
**Types of expressions.**
-/

import Dataflow.Expr.Basic
import Dataflow.Failure

namespace Dataflow.Expr

mutual

def infer (args : List TupleType) : Expr → Outcome FieldType
  | field arg index =>
    Outcome.ofOption (.schema (.noSuchField arg index args))
      (args[arg]?.bind (TupleType.type? · index))
  | literal value => return .atomic value.kind
  | binary op left right => do
    let l ← left.infer args
    let r ← right.infer args
    Outcome.ofOption (.schema (.cannotCombine op.symbol l r)) (op.resultType l r)
  | unary op operand => do
    let t ← operand.infer args
    Outcome.ofOption (.schema (.cannotApply op.symbol t)) (op.resultType t)
  | tuple items => do
    let types ← inferAll args items
    return .tuple (TupleType.positional types)

def inferAll (args : List TupleType) : List Expr → Outcome (List FieldType)
  | [] => return []
  | e :: rest => do
    let t ← e.infer args
    let ts ← inferAll args rest
    return t :: ts

end

end Dataflow.Expr
