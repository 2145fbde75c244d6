/-
**Expressions.**

The functions that filters, maps and reductions apply are expressions over the tuples they receive:
argument 0 is the tuple of a filter or map, or the accumulator of a reduction, whose argument 1 is
the next tuple.
-/

import Dataflow.Schema
import Dataflow.Value.Basic

namespace Dataflow

inductive BinaryOp where
  | add
  | sub
  | mul
  | div
  | rem
  | eq
  | ne
  | lt
  | le
  | gt
  | ge
  | and
  | or
deriving DecidableEq, Repr

namespace BinaryOp

def all : List BinaryOp := [add, sub, mul, div, rem, eq, ne, lt, le, gt, ge, and, or]

def name : BinaryOp → String
  | add => "add"
  | sub => "sub"
  | mul => "mul"
  | div => "div"
  | rem => "rem"
  | eq => "eq"
  | ne => "ne"
  | lt => "lt"
  | le => "le"
  | gt => "gt"
  | ge => "ge"
  | and => "and"
  | or => "or"

def ofName? (name : String) : Option BinaryOp :=
  all.find? (·.name == name)

def symbol : BinaryOp → String
  | add => "+"
  | sub => "-"
  | mul => "*"
  | div => "/"
  | rem => "%"
  | eq => "=="
  | ne => "!="
  | lt => "<"
  | le => "<="
  | gt => ">"
  | ge => ">="
  | and => "&&"
  | or => "||"

def isArithmetic (op : BinaryOp) : Bool :=
  [add, sub, mul, div, rem].contains op

def isComparison (op : BinaryOp) : Bool :=
  [eq, ne, lt, le, gt, ge].contains op

def isLogical (op : BinaryOp) : Bool :=
  [and, or].contains op

/-- The kind that an operator makes of operands of two kinds.  Remainders are for integers only;
equality compares two truth values or two numbers. -/
def resultKind (op : BinaryOp) (l r : Kind) : Option Kind :=
  match op with
  | rem => if l.isInteger && r.isInteger then l.promote r else none
  | add | sub | mul | div => l.promote r
  | eq | ne =>
    if (l = .bool ∧ r = .bool) ∨ (l.isNumeric ∧ r.isNumeric) then some .bool else none
  | lt | le | gt | ge => if l.isNumeric && r.isNumeric then some .bool else none
  | and | or => if l = .bool ∧ r = .bool then some .bool else none

/-- The type that an operator makes of operands of two types, both atomic. -/
def resultType (op : BinaryOp) (l r : FieldType) : Option FieldType := do
  let k ← op.resultKind (← l.kind?) (← r.kind?)
  return .atomic k

end BinaryOp

inductive UnaryOp where
  | not
  | neg
deriving DecidableEq, Repr

namespace UnaryOp

def name : UnaryOp → String
  | not => "not"
  | neg => "neg"

def ofName? (name : String) : Option UnaryOp :=
  [not, neg].find? (·.name == name)

def symbol : UnaryOp → String
  | not => "!"
  | neg => "-"

/-- The type that an operator makes of its operand, which is the type of the operand. -/
def resultType (op : UnaryOp) (t : FieldType) : Option FieldType :=
  match op with
  | not => if t.isBool then some t else none
  | neg => if t.isNumeric then some t else none

end UnaryOp

inductive Literal where
  | bool (b : Bool)
  | int (i : Int64)
  | float (x : Float)

namespace Literal

def kind : Literal → Kind
  | bool _ => .bool
  | int _ => .int64
  | float _ => .float64

def value : Literal → Value
  | bool b => .bool b
  | int i => .int i
  | float x => .float x

def text : Literal → String
  | bool b => if b then "true" else "false"
  | int i => toString i.toInt
  | float x => Number.Layout.plain.render x

/-- Whether two constants are equal, doubles compared as numbers. -/
def same : Literal → Literal → Bool
  | bool a, bool b => a == b
  | int a, int b => a == b
  | float a, float b => a == b
  | _, _ => false

end Literal

/-- An expression over the tuples that a function receives. -/
inductive Expr where
  | field (arg index : Nat)
  | literal (value : Literal)
  | binary (op : BinaryOp) (left right : Expr)
  | unary (op : UnaryOp) (operand : Expr)
  | tuple (items : List Expr)

namespace Expr

mutual

def text : Expr → String
  | field arg index => s!"${arg}.{index}"
  | literal value => value.text
  | binary op left right => "(" ++ left.text ++ " " ++ op.symbol ++ " " ++ right.text ++ ")"
  | unary op operand => op.symbol ++ operand.text
  | tuple items => "(" ++ ", ".intercalate (texts items) ++ ")"

def texts : List Expr → List String
  | [] => []
  | e :: rest => e.text :: texts rest

end

mutual

def literals : Expr → List Literal
  | field _ _ => []
  | literal value => [value]
  | binary _ left right => left.literals ++ right.literals
  | unary _ operand => operand.literals
  | tuple items => literalsAll items

def literalsAll : List Expr → List Literal
  | [] => []
  | e :: rest => e.literals ++ literalsAll rest

end

mutual

/-- The fields that an expression refers to, as argument and position, one entry per reference. -/
def fields : Expr → List (Nat × Nat)
  | field arg index => [(arg, index)]
  | literal _ => []
  | binary _ left right => left.fields ++ right.fields
  | unary _ operand => operand.fields
  | tuple items => fieldsAll items

def fieldsAll : List Expr → List (Nat × Nat)
  | [] => []
  | e :: rest => e.fields ++ fieldsAll rest

end

/-- The fields that an expression refers to, each once, in the order of their first use. -/
def references (e : Expr) : List (Nat × Nat) :=
  e.fields.eraseDups

mutual

/-- The expression with every field replaced through `f`; none if `f` drops one of them. -/
def remap (f : Nat → Nat → Option (Nat × Nat)) : Expr → Option Expr
  | field arg index => (fun (arg, index) => field arg index) <$> f arg index
  | literal value => some (literal value)
  | binary op left right => do
    let left ← left.remap f
    let right ← right.remap f
    return binary op left right
  | unary op operand => unary op <$> operand.remap f
  | tuple items => tuple <$> remapAll f items

def remapAll (f : Nat → Nat → Option (Nat × Nat)) : List Expr → Option (List Expr)
  | [] => some []
  | e :: rest => do
    let e ← e.remap f
    let rest ← remapAll f rest
    return e :: rest

end

mutual

/-- Whether two expressions are equal, double constants compared as numbers. -/
def same : Expr → Expr → Bool
  | field a i, field b j => a == b && i == j
  | literal a, literal b => a.same b
  | binary p a b, binary q c d => p == q && same a c && same b d
  | unary p a, unary q b => p == q && same a b
  | tuple as, tuple bs => sameAll as bs
  | _, _ => false

def sameAll : List Expr → List Expr → Bool
  | [], [] => true
  | a :: as, b :: bs => same a b && sameAll as bs
  | _, _ => false

end

end Expr

end Dataflow
