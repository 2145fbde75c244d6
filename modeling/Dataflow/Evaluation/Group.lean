/-
**Groups and aggregates.**

Groups are told apart by the text of their keys and stay in the order in which their first rows
appeared.
-/

import Dataflow.Operator.Basic

namespace Dataflow

/-- A value per key, keys in the order of their first appearance. -/
abbrev Groups (α : Type) := List (String × α)

namespace Groups

variable {α : Type}

/-- Changes the value of a key; a key without a value is put behind all others. -/
def update (key : String) (f : Option α → Outcome α) : Groups α → Outcome (Groups α)
  | [] => do return [(key, ← f none)]
  | (k, a) :: rest =>
    if k = key then do return (k, ← f (some a)) :: rest
    else do return (k, a) :: (← update key f rest)

end Groups

/-- An aggregate of the rows seen so far. -/
inductive Accumulator where
  | count (rows : Int64)
  /-- A sum; integers are cut to the width of the kind. -/
  | sum (kind : Option Kind) (sum : Option Value)
  | least (best : Option Value)
  | greatest (best : Option Value)

/-- How two numbers of one sort compare; not at all if one is not a number. -/
def Value.compare (a b : Value) : Outcome Ordering :=
  let failure := Failure.execution (.cannotCompare a.sort b.sort)
  match a, b with
  | .int a, .int b => return Ord.compare a.toInt b.toInt
  | .float a, .float b =>
    if a < b then return .lt
    else if a == b then return .eq
    else if b < a then return .gt
    else throw failure
  | _, _ => throw failure

namespace Accumulator

/-- The aggregate of no rows; `kind` is the kind of the field that it looks at. -/
def start (a : Aggregate) (kind : Option Kind) : Accumulator :=
  match a.fn with
  | .count => count 0
  | .sum => sum kind none
  | .min => least none
  | .max => greatest none

def addTo (kind : Option Kind) (total : Option Value) (v : Value) : Outcome Value :=
  match total, v with
  | none, .int i => return .int i
  | none, .float x => return .float x
  | some (.int a), .int b => return .int (match kind with
    | some k => k.wrap (a + b)
    | none => a + b)
  | some (.float a), .float b => return .float (a + b)
  | _, v => throw (.execution (.cannotSum v.sort))

/-- The better of two values: the new one if it compares to the old one as `keep` says. -/
def better (keep : Ordering) (best : Option Value) (v : Value) : Outcome Value :=
  match best with
  | none => return v
  | some old => do
    if (← v.compare old) = keep then return v else return old

/-- An aggregate with one more row, of which `value` is the field that it looks at. -/
def update (value : Option Value) : Accumulator → Outcome Accumulator
  | count rows => return count (rows + 1)
  | sum kind total => do
    let v ← Outcome.ofOption (.execution .sumWithoutField) value
    return sum kind (some (← addTo kind total v))
  | least best => do
    let v ← Outcome.ofOption (.execution .extremumWithoutField) value
    return least (some (← better .lt best v))
  | greatest best => do
    let v ← Outcome.ofOption (.execution .extremumWithoutField) value
    return greatest (some (← better .gt best v))

/-- The value of an aggregate; of no rows it is zero. -/
def value : Accumulator → Value
  | count rows => .int rows
  | sum _ total => total.getD (.int 0)
  | least best => best.getD (.int 0)
  | greatest best => best.getD (.int 0)

end Accumulator

end Dataflow
