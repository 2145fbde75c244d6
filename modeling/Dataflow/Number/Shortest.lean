/-
**The shortest decimal of a double.**

Every double is the rounding of a whole interval of real numbers: half the way to each neighbour,
the ends included when the mantissa is even.  Of the decimals `d · 10^p` in that interval the one
with the largest `p`, hence the fewest digits, and among those the nearest to the double, is the
shortest text that reads back to it.

All comparisons are exact: the interval is measured in quarters of the unit `2^e`, and powers of two
and ten are moved to the side where their exponent is not negative.
-/

import Dataflow.Number.Binary64

namespace Dataflow.Number

/-- The number `digits · 10^exponent`. -/
structure Decimal where
  digits : Nat
  exponent : Int
deriving DecidableEq, Repr

/-- The reals that round to a dyadic number `mid`, from `low` to `high`, all three in units of
`2^exponent`. -/
structure Window where
  low : Nat
  mid : Nat
  high : Nat
  exponent : Int
  closed : Bool

/-- The window of a dyadic number that is a double.  Below a power of two the next double is only
half as far away. -/
def Dyadic.window (d : Dyadic) : Window where
  low := 4 * d.mantissa - if d.mantissa = hiddenBit ∧ d.exponent ≠ minExponent then 1 else 2
  mid := 4 * d.mantissa
  high := 4 * d.mantissa + 2
  exponent := d.exponent - 2
  closed := d.mantissa % 2 = 0

/-- `10^p` over `2^e` as a fraction of natural numbers. -/
def gridRatio (p e : Int) : Nat × Nat :=
  (Nat.pow 10 p.toNat <<< (-e).toNat, Nat.pow 10 (-p).toNat <<< e.toNat)

/-- Whether `d · 10^p` lies in the window, where `10^p` is `num / den` units. -/
def Window.holds (w : Window) (num den d : Nat) : Bool :=
  if w.closed then w.low * den ≤ d * num && d * num ≤ w.high * den
  else w.low * den < d * num && d * num < w.high * den

/-- The multiple of `10^p` in the window that is nearest to its middle.  Two neighbours at the same
distance are told apart by `tieUp`: the upper one, or else the even one. -/
def Window.pick? (w : Window) (tieUp : Bool) (p : Int) : Option Nat :=
  let (num, den) := gridRatio p w.exponent
  let below := w.mid * den / num
  let above := below + 1
  let down := w.mid * den - below * num
  let up := above * num - w.mid * den
  match w.holds num den below, w.holds num den above with
  | false, false => none
  | true, false => some below
  | false, true => some above
  | true, true =>
    if down < up then some below
    else if up < down then some above
    else if tieUp || below % 2 = 1 then some above
    else some below

/-- A power of ten above the dyadic number, by at most two decimal places. -/
def Dyadic.decimalCeiling (d : Dyadic) : Int :=
  ((d.mantissa.log2 + 1 : Nat) + d.exponent) * 1233 / 4096 + 2

/-- The shortest decimal that reads back to the double `d`; `d` is not zero.  Seventeen digits
always suffice, so at most twenty-four places below the ceiling are tried. -/
def Dyadic.shortest (d : Dyadic) (tieUp : Bool) : Decimal :=
  let w := d.window
  let top := d.decimalCeiling
  ((List.range 24).findSome? fun (i : Nat) =>
    (w.pick? tieUp (top - i)).map fun digits => ⟨digits, top - i⟩).getD ⟨0, 0⟩

end Dataflow.Number
