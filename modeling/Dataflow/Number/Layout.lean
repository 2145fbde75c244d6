/-
**Doubles as text.**

A double is written with its shortest digits, positionally when its decimal exponent lies in a given
range and in scientific notation otherwise.  A `Layout` holds what a format decides: the range, the
sign of the exponent, which way ties go, and the texts of the values that have no digits.
-/

import Dataflow.Number.Shortest

namespace Dataflow.Number

structure Layout where
  /-- The smallest decimal exponent that is written positionally. -/
  leastPositional : Int
  /-- The smallest decimal exponent from which scientific notation is used again. -/
  leastScientific : Int
  plusSign : Bool
  /-- Whether the upper of two equally near decimals is taken, instead of the even one. -/
  tieUp : Bool
  notANumber : String
  infinity : String

/-- Positional from `1e-4` to below `1e16`; exponents without a plus sign. -/
def Layout.plain : Layout where
  leastPositional := -4
  leastScientific := 16
  plusSign := false
  tieUp := true
  notANumber := "NaN"
  infinity := "inf"

/-- Positional from `1e-5` to below `1e16`; exponents with their sign.  JSON has no text for
infinities, so none of them is a number. -/
def Layout.json : Layout where
  leastPositional := -5
  leastScientific := 16
  plusSign := true
  tieUp := false
  notANumber := "null"
  infinity := "null"

def zeros (n : Nat) : String :=
  String.ofList (List.replicate n '0')

/-- Digits and a power of ten, written positionally with at least one place after the point. -/
def positional (digits : List Char) (exponent : Int) : String :=
  let point : Int := digits.length + exponent
  if 0 ≤ exponent then String.ofList digits ++ zeros exponent.toNat ++ ".0"
  else if 0 < point then
    String.ofList (digits.take point.toNat) ++ "." ++ String.ofList (digits.drop point.toNat)
  else "0." ++ zeros (-point).toNat ++ String.ofList digits

/-- Digits with the point behind the first one, times a power of ten. -/
def scientific (plusSign : Bool) (digits : List Char) (exponent : Int) : String :=
  let fraction := digits.drop 1
  String.ofList (digits.take 1)
    ++ (if fraction.isEmpty then "" else "." ++ String.ofList fraction)
    ++ "e" ++ (if plusSign && 0 ≤ exponent then "+" else "") ++ toString exponent

def Layout.decimal (l : Layout) (d : Decimal) : String :=
  let digits := (toString d.digits).toList
  let exponent : Int := d.exponent + digits.length - 1
  if l.leastPositional ≤ exponent ∧ exponent < l.leastScientific then
    positional digits d.exponent
  else scientific l.plusSign digits exponent

def Layout.render (l : Layout) (x : Float) : String :=
  match Binary64.ofFloat x with
  | .notANumber => l.notANumber
  | .infinite negative => (if negative && l.infinity != l.notANumber then "-" else "") ++ l.infinity
  | .finite d =>
    (if d.negative then "-" else "")
      ++ if d.mantissa = 0 then "0.0" else l.decimal (d.shortest l.tieUp)

end Dataflow.Number
