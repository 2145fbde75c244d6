/-
**Ranges of integers.**

A range counts from its start in steps, upwards or downwards, as long as it has not reached its stop
and the next integer has 64 bits.
-/

import Dataflow.Failure

namespace Dataflow

/-- The integers from `start` up or down to `stop`, which is not among them, in steps of `step`. -/
structure Range where
  start : Int64
  stop : Int64
  step : Int64
deriving DecidableEq, Repr

namespace Range

def make (start stop step : Int64) : Outcome Range :=
  if step = 0 then .error (.invalidParameter .zeroStep) else .ok ⟨start, stop, step⟩

def inside (r : Range) (i : Int64) : Bool :=
  if 0 < r.step then i < r.stop else r.stop < i

/-- The integer one step further, if it has 64 bits. -/
def next? (r : Range) (i : Int64) : Option Int64 :=
  let j : Int := i.toInt + r.step.toInt
  if Int64.minValue.toInt ≤ j ∧ j ≤ Int64.maxValue.toInt then some (Int64.ofInt j) else none

/-- The first integers of the range from `i` on, at most `count` of them. -/
def valuesFrom (r : Range) : (count : Nat) → (i : Int64) → List Int64
  | 0, _ => []
  | count + 1, i =>
    if r.inside i then
      i :: match r.next? i with
        | some j => valuesFrom r count j
        | none => []
    else []

def take (r : Range) (count : Nat) : List Int64 :=
  r.valuesFrom count r.start

/-- The integers of a range.  There are no more of them than lie between its ends. -/
def values (r : Range) : List Int64 :=
  r.take (r.stop.toInt - r.start.toInt).natAbs

def text (r : Range) : String :=
  s!"from={r.start.toInt}, to={r.stop.toInt}, step={r.step.toInt}"

end Range

/-- The partition of a key among `count` partitions: the remainder, which is not negative.  More
partitions than there are positive integers of 64 bits make no difference. -/
def partitionOf (count : Nat) (key : Int64) : Int64 :=
  Int64.ofInt (key.toInt % min (count : Int) Int64.maxValue.toInt)

end Dataflow
