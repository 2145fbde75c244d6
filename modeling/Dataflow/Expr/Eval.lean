/-
**Values of expressions.**

An expression is evaluated on one row per argument.  Integers have 64 bits; when the types of the
arguments are known, every computed integer is cut to the width of its own type, but not below 32
bits, since narrower integers are widened to 32 bits before they are combined.  `and` and `or` look
at their right operand only if the left one does not decide.
-/

import Dataflow.Expr.Typing

namespace Dataflow

def BinaryOp.applyInt (op : BinaryOp) (l r : Int64) : Outcome Value :=
  match op with
  | .add => return .int (l + r)
  | .sub => return .int (l - r)
  | .mul => return .int (l * r)
  | .div => if r = 0 then throw (.execution .divisionByZero) else return .int (l / r)
  | .rem => if r = 0 then throw (.execution .divisionByZero) else return .int (l % r)
  | .eq => return .bool (l = r)
  | .ne => return .bool (l ≠ r)
  | .lt => return .bool (l < r)
  | .le => return .bool (l ≤ r)
  | .gt => return .bool (r < l)
  | .ge => return .bool (r ≤ l)
  | .and | .or => throw (.execution (.requiresBool op.symbol))

/-- An operator on two truth values, which can only be compared. -/
def BinaryOp.applyBool (op : BinaryOp) (l r : Bool) : Outcome Value :=
  match op with
  | .eq => return .bool (l = r)
  | .ne => return .bool (l ≠ r)
  | _ => throw (.execution (.notForBool op.symbol))

def BinaryOp.applyFloat (op : BinaryOp) (l r : Float) : Outcome Value :=
  match op with
  | .add => return .float (l + r)
  | .sub => return .float (l - r)
  | .mul => return .float (l * r)
  | .div => return .float (l / r)
  | .rem => return .float (Number.remainder l r)
  | .eq => return .bool (l == r)
  | .ne => return .bool (l != r)
  | .lt => return .bool (l < r)
  | .le => return .bool (l ≤ r)
  | .gt => return .bool (r < l)
  | .ge => return .bool (r ≤ l)
  | .and | .or => throw (.execution (.requiresBool op.symbol))

/-- An operator on two values.  Two integers stay integers; an integer and a double are combined as
doubles. -/
def BinaryOp.apply (op : BinaryOp) (left right : Value) : Outcome Value :=
  match left, right with
  | .int l, .int r => op.applyInt l r
  | .bool l, .bool r => op.applyBool l r
  | _, _ =>
    match left.float?, right.float? with
    | some l, some r => op.applyFloat l r
    | _, _ => throw (.execution (.cannotCombine op.symbol left.sort right.sort))

def UnaryOp.apply (op : UnaryOp) (v : Value) : Outcome Value :=
  match op, v with
  | .not, .bool b => return .bool (!b)
  | .neg, .int i => return .int (-i)
  | .neg, .float x => return .float (-x)
  | op, v => throw (.execution (.cannotApply op.symbol v.sort))

/-- A value as the operand of `and` or `or`. -/
def Value.truth (v : Value) : Outcome Bool :=
  Outcome.ofOption (.execution (.expectedBool v.sort)) v.bool?

/-- The width at which integers of a type are computed: their own, and at least 32 bits. -/
def FieldType.computeKind? (t : FieldType) : Option Kind :=
  t.kind?.bind (·.promote .int32)

namespace Expr

/-- A computed value at the width of the type of its expression; without types the width is 64
bits. -/
def narrow (types : Option (List TupleType)) (e : Expr) (v : Value) : Outcome Value :=
  match v, types with
  | .int i, some types => do
    let t ← e.infer types
    return .int (match t.computeKind? with
      | some k => k.wrap i
      | none => i)
  | v, _ => return v

mutual

/-- The value of an expression on the given argument rows. -/
def eval (rows : List Row) (types : Option (List TupleType)) : Expr → Outcome Value
  | field arg index =>
    Outcome.ofOption (.execution (.missingArgument arg index)) (rows[arg]?.bind (·[index]?))
  | literal value => return value.value
  | binary op left right => do
    let l ← left.eval rows types
    if op.isLogical then
      let b ← l.truth
      if b = (op = .or) then return .bool b
      let r ← right.eval rows types
      let c ← r.truth
      return .bool c
    else
      let r ← right.eval rows types
      let v ← op.apply l r
      narrow types (binary op left right) v
  | unary op operand => do
    let v ← operand.eval rows types
    let v ← op.apply v
    narrow types (unary op operand) v
  | tuple items => do
    let values ← evalAll rows types items
    return .tuple values

def evalAll (rows : List Row) (types : Option (List TupleType)) : List Expr → Outcome (List Value)
  | [] => return []
  | e :: rest => do
    let v ← e.eval rows types
    let vs ← evalAll rows types rest
    return v :: vs

end

def evalTyped (types : List TupleType) (rows : List Row) (e : Expr) : Outcome Value :=
  e.eval rows (some types)

end Expr

end Dataflow
