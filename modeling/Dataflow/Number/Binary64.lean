/-
**Doubles as dyadic numbers.**

A finite double is `±m · 2^e` for a natural `m` and an integer `e`.  Decoding a double into these
parts turns questions about it into exact arithmetic on natural numbers; here the remainder of a
division and the rounding to single precision are answered that way.
-/

namespace Dataflow.Number

/-- The number `±mantissa · 2^exponent`. -/
structure Dyadic where
  negative : Bool
  mantissa : Nat
  exponent : Int
deriving DecidableEq, Repr

inductive Binary64 where
  | finite (value : Dyadic)
  | infinite (negative : Bool)
  | notANumber
deriving DecidableEq, Repr

def minExponent : Int := -1074

/-- The bit above the 52 bits of a fraction; normal doubles leave it out. -/
def hiddenBit : Nat := 0x10000000000000

/-- The exponent field of the doubles that are not finite, eleven ones. -/
def topExponent : Nat := 0x7FF

def signBit (negative : Bool) : Nat :=
  if negative then 0x8000000000000000 else 0

/-- Reads a double by its sign, exponent and fraction bits. -/
def Binary64.ofFloat (x : Float) : Binary64 :=
  let bits : Nat := x.toBits.toNat
  let negative : Bool := signBit true ≤ bits
  let biased : Nat := bits / hiddenBit % (topExponent + 1)
  let fraction : Nat := bits % hiddenBit
  if biased = topExponent then
    if fraction = 0 then .infinite negative else .notANumber
  else if biased = 0 then .finite ⟨negative, fraction, minExponent⟩
  else .finite ⟨negative, fraction + hiddenBit, (biased : Int) + minExponent - 1⟩

def infinity (negative : Bool) : Float :=
  Float.ofBits (UInt64.ofNat (signBit negative + topExponent * hiddenBit))

def notANumber : Float :=
  Float.ofBits (UInt64.ofNat (topExponent * hiddenBit + hiddenBit / 2))

/-- The double equal to a dyadic number, for a mantissa below `2^53` and an exponent of at least
`minExponent`; a number too large for a double gives an infinity. -/
def Dyadic.toFloat (d : Dyadic) : Float :=
  let shift : Nat := 52 - d.mantissa.log2
  let biased : Int := d.exponent - shift - minExponent + 1
  let bits : Nat :=
    if d.mantissa = 0 then 0
    else if biased ≤ 0 then d.mantissa <<< (d.exponent - minExponent).toNat
    else biased.toNat * hiddenBit + (d.mantissa <<< shift - hiddenBit)
  if topExponent ≤ biased ∧ d.mantissa ≠ 0 then infinity d.negative
  else Float.ofBits (UInt64.ofNat (signBit d.negative + bits))

/-- `n / d` rounded to the nearest natural number, a half to the even neighbour. -/
def roundDiv (n d : Nat) : Nat :=
  let q := n / d
  let r := n % d
  if 2 * r < d then q
  else if d < 2 * r then q + 1
  else q + q % 2

/-- The dyadic number with at most 24 bits and an exponent of at least -149 that is nearest to `d`,
a half going to the even mantissa. -/
def Dyadic.toSingle (d : Dyadic) : Dyadic :=
  let excess : Nat := d.mantissa.log2 + 1 - 24
  let drop : Nat := max excess (-149 - d.exponent).toNat
  ⟨d.negative, roundDiv d.mantissa (1 <<< drop), d.exponent + drop⟩

/-- Whether a dyadic number reaches `2^128`, beyond which single precision has only infinity. -/
def Dyadic.exceedsSingle (d : Dyadic) : Bool :=
  d.mantissa ≠ 0 && (128 : Int) ≤ d.mantissa.log2 + d.exponent

/-- A double rounded to single precision, as a double. -/
def toSingle (x : Float) : Float :=
  match Binary64.ofFloat x with
  | .finite d =>
    let s := d.toSingle
    if s.exceedsSingle then infinity s.negative else s.toFloat
  | .infinite _ => x
  | .notANumber => x

/-- What `x` leaves when divided by `y` with the quotient cut toward zero; it has the sign of `x`
and is exact. -/
def remainder (x y : Float) : Float :=
  match Binary64.ofFloat x, Binary64.ofFloat y with
  | .finite a, .finite b =>
    if b.mantissa = 0 then notANumber
    else
      let e := min a.exponent b.exponent
      let m := a.mantissa <<< (a.exponent - e).toNat
      let n := b.mantissa <<< (b.exponent - e).toNat
      Dyadic.toFloat ⟨a.negative, m % n, e⟩
  | .finite _, .infinite _ => x
  | _, _ => notANumber

def ofInteger (i : Int) : Float :=
  Float.ofInt i

end Dataflow.Number
