/-
**Kinds of atomic fields.**

An atomic field holds a truth value, an integer of 8 to 64 bits, or a floating-point number of
single or double precision.  Arithmetic on two kinds happens in the wider one.
-/

import Dataflow.Text.Basic

namespace Dataflow

inductive Kind where
  | bool
  | int8
  | int16
  | int32
  | int64
  | float32
  | float64
deriving DecidableEq, Repr

namespace Kind

/-- All kinds, the narrower first within each family. -/
def all : List Kind := [bool, int8, int16, int32, int64, float32, float64]

def tag : Kind → String
  | bool => "bool"
  | int8 => "int8"
  | int16 => "int16"
  | int32 => "int32"
  | int64 => "int64"
  | float32 => "float32"
  | float64 => "float64"

def ofTag? (tag : String) : Option Kind :=
  all.find? (·.tag == tag)

def cType : Kind → String
  | bool => "bool"
  | int8 => "int8_t"
  | int16 => "int16_t"
  | int32 => "int32_t"
  | int64 => "int64_t"
  | float32 => "float"
  | float64 => "double"

/-- The number of bits of an integer kind, none for the others. -/
def bits? : Kind → Option Nat
  | int8 => some 8
  | int16 => some 16
  | int32 => some 32
  | int64 => some 64
  | _ => none

def isInteger (k : Kind) : Bool :=
  k.bits?.isSome

def isFloat : Kind → Bool
  | float32 => true
  | float64 => true
  | _ => false

def isNumeric (k : Kind) : Bool :=
  k.isInteger || k.isFloat

def bounds? : Kind → Option (Int × Int)
  | int8 => some (Int8.minValue.toInt, Int8.maxValue.toInt)
  | int16 => some (Int16.minValue.toInt, Int16.maxValue.toInt)
  | int32 => some (Int32.minValue.toInt, Int32.maxValue.toInt)
  | int64 => some (Int64.minValue.toInt, Int64.maxValue.toInt)
  | _ => none

/-- Whether an integer kind holds `i`; the other kinds hold no integer. -/
def holds (k : Kind) (i : Int64) : Bool :=
  match k.bounds? with
  | some (least, greatest) => least ≤ i.toInt && i.toInt ≤ greatest
  | none => false

/-- An integer cut to the width of a kind, as storing it into a field of that kind does.  Kinds that
are not integers leave it unchanged. -/
def wrap : Kind → Int64 → Int64
  | int8, i => i.toInt8.toInt64
  | int16, i => i.toInt16.toInt64
  | int32, i => i.toInt32.toInt64
  | _, i => i

def wider (a b : Kind) : Kind :=
  if a.bits?.getD 0 ≤ b.bits?.getD 0 then b else a

/-- The kind in which numbers of two kinds are combined: the wider of two integer kinds, single
precision for two singles, otherwise double precision. -/
def promote (a b : Kind) : Option Kind :=
  if !a.isNumeric || !b.isNumeric then none
  else if a = float32 ∧ b = float32 then some float32
  else if a.isFloat || b.isFloat then some float64
  else some (a.wider b)

/-- A text with `.0` behind it, unless it shows to be a floating-point number already. -/
def pointed (text : String) : String :=
  let cs := text.toList
  if cs.any (fun c => c = '.' || c = 'e' || c = 'E') || Text.hasPart ['i', 'n', 'f'] cs then text
  else text ++ ".0"

/-- A constant of a kind from its decimal text.  Constants of 64 bits end in `L` and those of single
precision in `f`; floating-point constants have a point or an exponent. -/
def literal (k : Kind) (text : String) : String :=
  match k with
  | int64 => text ++ "L"
  | float32 => pointed text ++ "f"
  | float64 => pointed text
  | _ => text

@[simp] theorem ofTag?_tag (k : Kind) : ofTag? k.tag = some k := by
  cases k <;> decide

end Kind

end Dataflow
