/-
**Rounding to single precision is done once.**

A field of single precision rounds what is stored in it, and a row is stored once per operator that
it passes.  Rounding a number that was rounded before leaves it as it is, so the number of operators
on the way does not matter.

The argument goes through the bits of a double.  Bits that do not stand for "not a number" are read
back as they were written (`toBits_ofBits`), so the parts of a rounded number are known exactly
(`ofFloat_toFloat`), and rounding them drops only zeros
(`Dyadic.Short.toFloat_toSingle_raised`).

Main results:

* `toBits_ofBits` — the bits of a double made from bits;
* `ofFloat_toFloat` — the parts of a double made from its parts;
* `toSingle_toSingle` — **rounding to single precision is idempotent**.
-/

import Dataflow.Number.Binary64
import Mathlib.Tactic.NormNum
import Mathlib.Tactic.Ring

namespace Dataflow.Number

open Dataflow.Number.Dyadic BitVec Binary64

open Float.Model (Format UnpackedFloat)
open Float.Model.UnpackedFloat (Sign packComponents unpackSign unpackExponent unpackMantissa)

/-! ### Bits of a double -/

/-- Taking the bits of a double apart and putting them together again changes nothing. -/
theorem packComponents_parts (b : BitVec Format.binary64.numBits) :
    packComponents .binary64 (Sign.ofBitVec (unpackSign b)) (unpackExponent b)
    (unpackMantissa b) = b := by
  have hsign : ∀ v : BitVec 1, (Sign.ofBitVec v).toBitVec = v := by decide
  have hfirst : unpackSign b = extractLsb 63 63 b := rfl
  apply eq_of_toNat_eq
  simp only [packComponents, hsign, toNat_append, hfirst, unpackExponent,
    unpackMantissa, toNat_cast, extractLsb_toNat]
  rw [← Nat.shiftLeft_add_eq_or_of_lt (Nat.mod_lt _ (by norm_num)),
    ← Nat.shiftLeft_add_eq_or_of_lt (Nat.mod_lt _ (by norm_num))]
  have := b.isLt
  simp only [Nat.shiftLeft_eq, Nat.shiftRight_eq_div_pow, Format.numBits] at this ⊢
  norm_num at this ⊢
  omega

/-- The mantissa of a normal double has the bit that its fraction leaves out. -/
theorem toNat_significand (m : BitVec 52) : (1#1 ++ m).toNat = 2 ^ 52 + m.toNat := by
  rw [toNat_append, ← Nat.shiftLeft_add_eq_or_of_lt m.isLt]
  rfl

theorem pack_finite (s : Sign) (m : Nat) (e : Int) (hm : 0 < m) :
    UnpackedFloat.pack .binary64 (.finite s m e hm) = let biased :=
  (e + (Format.binary64.exponentBias : Int) + (52 : Nat)).toNat
    if 2 ^ 11 ≤ biased + 1 then UnpackedFloat.packedInfinity .binary64 s
    else if m.log2 + 1 =
      53 then packComponents .binary64 s (BitVec.ofNat 11 biased) (BitVec.ofNat 52 m)
    else packComponents .binary64 s 0#11 (BitVec.ofNat 52 m) :=
  rfl

theorem pack_subnormal (s : Sign) (m : BitVec 52) (hm : 0 < m.toNat) :
    UnpackedFloat.pack .binary64 (.finite s m.toNat (-1074) hm) =
      packComponents .binary64 s 0#11 m := by
  have hlog : m.toNat.log2 < 52 := (Nat.log2_lt hm.ne').2 m.isLt
  have hbiased : (-1074 + (Format.binary64.exponentBias : Int) + (52 : Nat)).toNat = 1 := by decide
  rw [pack_finite]
  simp only [hbiased]
  rw [if_neg (by decide), if_neg (by omega), ofNat_toNat]
  rfl

theorem pack_normal (s : Sign) (e : BitVec 11) (m : BitVec 52) (he : e.toNat < 2047)
    (hm : 0 < (1#1 ++ m).toNat) :
    UnpackedFloat.pack .binary64 (.finite s (1#1 ++ m).toNat ((e.toNat : Int) - 1075) hm) =
      packComponents .binary64 s e m := by
  have hlog : (1#1 ++ m).toNat.log2 = 52 := by
    have := m.isLt
    rw [Nat.log2_eq_iff hm.ne', toNat_significand]
    omega
  have hbias : (Format.binary64.exponentBias : Int) = 1023 := rfl
  have hbiased : ((e.toNat : Int) - 1075 + (Format.binary64.exponentBias : Int) + (52 : Nat)).toNat
      = e.toNat := by omega
  rw [pack_finite]
  simp only [hbiased, hlog]
  rw [if_neg (by norm_num; omega), if_pos trivial, ofNat_toNat, toNat_significand]
  congr 1
  apply eq_of_toNat_eq
  simpa using m.isLt

/-- Bits that do not stand for "not a number" are kept. -/
theorem pack_unpack (b : BitVec Format.binary64.numBits)
    (h : unpackExponent b = -1#11 → unpackMantissa b = 0#52) :
    UnpackedFloat.pack .binary64 (UnpackedFloat.unpack .binary64 b) = b := by
  conv_rhs => rw [← packComponents_parts b]
  by_cases he : unpackExponent b = -1#11
  · have hunpack : UnpackedFloat.unpack .binary64 b = .infinity (Sign.ofBitVec (unpackSign b)) :=
      (if_pos he).trans (if_pos (h he))
    rw [hunpack, he, h he]
    rfl
  by_cases hz : unpackExponent b = 0#11
  · by_cases hm : unpackMantissa b = 0#52
    · have hunpack : UnpackedFloat.unpack .binary64 b = .zero (Sign.ofBitVec (unpackSign b)) :=
        (if_neg he).trans ((if_pos hz).trans (dif_pos hm))
      rw [hunpack, hz, hm]
      rfl
    · have hpos : 0 < (unpackMantissa b).toNat :=
        Nat.pos_of_ne_zero fun h => hm (eq_of_toNat_eq h)
      have hunpack : UnpackedFloat.unpack .binary64 b = .finite (Sign.ofBitVec (unpackSign b))
          (unpackMantissa b).toNat ((unpackExponent b).toNat - 1075 + 1) hpos :=
        (if_neg he).trans ((if_pos hz).trans (dif_neg hm))
      rw [hunpack, hz]
      exact pack_subnormal (Sign.ofBitVec (unpackSign b)) (unpackMantissa b) hpos
  · have hlt : (unpackExponent b).toNat < 2047 := by
      have hle := (unpackExponent b).isLt
      have hne : (unpackExponent b).toNat ≠ 2047 := fun h => he (eq_of_toNat_eq h)
      norm_num at hle
      omega
    have hpos : 0 < (1#1 ++ unpackMantissa b).toNat :=
      (toNat_significand (unpackMantissa b)).symm ▸ by omega
    have hunpack : UnpackedFloat.unpack .binary64 b = .finite (Sign.ofBitVec (unpackSign b))
        (1#1 ++ unpackMantissa b).toNat ((unpackExponent b).toNat - 1075) hpos :=
        (if_neg he).trans (if_neg hz)
    rw [hunpack]
    exact pack_normal (Sign.ofBitVec (unpackSign b)) (unpackExponent b) (unpackMantissa b) hlt hpos

/-- The bits of a double that was made from bits, unless these stand for "not a number". -/
theorem toBits_ofBits {n : Nat} (hn : n < 2 ^ 64)
    (h : n / hiddenBit % (topExponent + 1) = topExponent → n % hiddenBit = 0) :
    (Float.ofBits (UInt64.ofNat n)).toBits.toNat = n := by
  have hword : (UInt64.ofNat n).toBitVec.toNat = n := by
    simp only [UInt64.toNat_toBitVec, UInt64.toNat_ofNat']
    omega
  have hpack : UnpackedFloat.pack .binary64
    (UnpackedFloat.unpack .binary64 (UInt64.ofNat n).toBitVec)
      = (UInt64.ofNat n).toBitVec := by
    refine pack_unpack _ fun he => BitVec.eq_of_toNat_eq ?_
    have hexp := congrArg BitVec.toNat he
    simp only [unpackExponent, unpackMantissa, BitVec.toNat_cast, BitVec.extractLsb_toNat, hword,
      Nat.shiftRight_eq_div_pow] at hexp ⊢
    simp only [hiddenBit, topExponent] at h
    norm_num at hexp ⊢
    exact h hexp
  show (UnpackedFloat.pack .binary64
    (UnpackedFloat.unpack .binary64 (UInt64.ofNat n).toBitVec)).toNat = n
  rw [hpack, hword]

/-! ### Parts of a double -/

/-- The place by which a mantissa is moved up so that its first bit is the hidden bit. -/
def Dyadic.shift (d : Dyadic) : Nat := 52 - d.mantissa.log2

/-- The exponent field of the double of a dyadic number. -/
def Dyadic.biased (d : Dyadic) : Int := d.exponent - d.shift - minExponent + 1

/-- What makes a dyadic number a normal double: its mantissa fits, and so does its exponent. -/
structure Dyadic.Normal (d : Dyadic) : Prop where
  pos : 0 < d.mantissa
  log_le : d.mantissa.log2 ≤ 52
  biased_pos : 0 < d.biased
  biased_lt : d.biased < topExponent

variable {d : Dyadic} {x : Float}

/-- The mantissa of a normal double lies between the hidden bit and its double. -/
theorem Dyadic.Normal.shifted_bounds (h : d.Normal) :
    hiddenBit ≤ d.mantissa <<< d.shift ∧ d.mantissa <<< d.shift < 2 * hiddenBit := by
  have hlow := Nat.log2_self_le h.pos.ne'
  have hhigh := Nat.lt_log2_self (n := d.mantissa)
  have hsum : d.mantissa.log2 + d.shift = 52 := by
    have := h.log_le
    unfold shift
    omega
  have hbit : 2 ^ d.mantissa.log2 * 2 ^ d.shift = hiddenBit := by
    rw [← Nat.pow_add, hsum]
    rfl
  rw [Nat.shiftLeft_eq]
  constructor
  · calc hiddenBit = 2 ^ d.mantissa.log2 * 2 ^ d.shift := hbit.symm
      _ ≤ d.mantissa * 2 ^ d.shift := Nat.mul_le_mul_right _ hlow
  · calc d.mantissa * 2 ^ d.shift < 2 ^ (d.mantissa.log2 + 1) * 2 ^ d.shift :=
          Nat.mul_lt_mul_of_pos_right hhigh (Nat.two_pow_pos _)
      _ = 2 * hiddenBit := by rw [← hbit]; ring

/-- The bits of a normal double. -/
def Dyadic.normalBits (d : Dyadic) : Nat :=
  signBit d.negative + (d.biased.toNat * hiddenBit + (d.mantissa <<< d.shift - hiddenBit))

theorem Dyadic.Normal.toFloat_eq (h : d.Normal) :
    d.toFloat = Float.ofBits (UInt64.ofNat d.normalBits) := by
  have hpos := h.pos.ne'
  have hlow := h.biased_pos
  have hhigh := h.biased_lt
  unfold biased shift at hlow hhigh
  unfold toFloat normalBits biased shift
  simp only
  rw [if_neg (by omega), if_neg hpos, if_neg (by omega)]

/-- The parts of a double that was made from its parts: the same number, its mantissa moved up. -/
theorem ofFloat_toFloat (h : d.Normal) : ofFloat d.toFloat =
      .finite ⟨d.negative, d.mantissa <<< d.shift, d.exponent - d.shift⟩ := by
  obtain ⟨hlow, hhigh⟩ := h.shifted_bounds
  have hpos := h.biased_pos
  have hlt := h.biased_lt
  have hbits : (Float.ofBits (UInt64.ofNat d.normalBits)).toBits.toNat = d.normalBits := by
    refine toBits_ofBits ?_ ?_
    · simp only [normalBits, signBit, hiddenBit, topExponent] at *
      split <;> omega
    · simp only [normalBits, signBit, hiddenBit, topExponent] at *
      split <;> omega
  have hsign : decide (signBit true ≤ d.normalBits) = d.negative := by
    simp only [normalBits, signBit, hiddenBit, topExponent] at *
    cases d.negative
    · simp
      omega
    · simp
  have hfield : d.normalBits / hiddenBit % (topExponent + 1) = d.biased.toNat := by
    simp only [normalBits, signBit, hiddenBit, topExponent] at *
    split <;> omega
  have hfraction : d.normalBits % hiddenBit = d.mantissa <<< d.shift - hiddenBit := by
    simp only [normalBits, signBit, hiddenBit, topExponent] at *
    split <;> omega
  unfold ofFloat
  simp only [h.toFloat_eq, hbits, hsign, hfield, hfraction]
  rw [if_neg (by omega), if_neg (by omega)]
  have hexp : (d.biased.toNat : Int) + minExponent - 1 = d.exponent - d.shift := by
    rw [Int.toNat_of_nonneg hpos.le]
    unfold biased
    omega
  rw [hexp, Nat.sub_add_cancel hlow]

/-! ### Rounding -/

theorem roundDiv_le (n d : Nat) : roundDiv n d ≤ n / d + 1 := by
  unfold roundDiv
  simp only
  split
  · omega
  · split
    · omega
    · omega

theorem roundDiv_mul (q : Nat) {d : Nat} (hd : 0 < d) : roundDiv (q * d) d = q := by
  simp [roundDiv, Nat.mul_div_cancel q hd, hd]

/-- The number of bits that rounding to single precision drops. -/
def Dyadic.dropped (d : Dyadic) : Nat := max (d.mantissa.log2 + 1 - 24) (-149 - d.exponent).toNat

theorem Dyadic.toSingle_eq (d : Dyadic) :
    d.toSingle = ⟨d.negative, roundDiv d.mantissa (2 ^ d.dropped), d.exponent + d.dropped⟩ := by
  simp only [toSingle, dropped, Nat.one_shiftLeft]

/-- What a rounded number is like: at most 24 bits, or `2 ^ 24` after a carry, and no exponent
below the least one of single precision. -/
structure Dyadic.Short (d : Dyadic) : Prop where
  mantissa_le : d.mantissa ≤ 2 ^ 24
  exponent_ge : -149 ≤ d.exponent

theorem Dyadic.short_toSingle (d : Dyadic) : d.toSingle.Short := by
  rw [toSingle_eq]
  refine ⟨?_, ?_⟩
  · have hle : d.mantissa.log2 + 1 ≤ d.dropped + 24 := by
      have := Nat.le_max_left (d.mantissa.log2 + 1 - 24) (-149 - d.exponent).toNat
      unfold dropped
      omega
    have hlt : d.mantissa < 2 ^ d.dropped * 2 ^ 24 := by
      rw [← Nat.pow_add]
      exact lt_of_lt_of_le Nat.lt_log2_self (Nat.pow_le_pow_right (by omega) hle)
    have hdiv : d.mantissa / 2 ^ d.dropped < 2 ^ 24 := Nat.div_lt_of_lt_mul hlt
    have := roundDiv_le d.mantissa (2 ^ d.dropped)
    show roundDiv d.mantissa (2 ^ d.dropped) ≤ 2 ^ 24
    omega
  · have := Nat.le_max_right (d.mantissa.log2 + 1 - 24) (-149 - d.exponent).toNat
    show -149 ≤ d.exponent + (d.dropped : Int)
    unfold dropped
    omega

/-- A rounded number that single precision can hold is a normal double, unless it is zero. -/
theorem Dyadic.Short.normal (h : d.Short) (hpos : 0 < d.mantissa)
    (hfits : d.exceedsSingle = false) : d.Normal := by
  have hlog : d.mantissa.log2 ≤ 24 := by
    rw [← Nat.lt_succ_iff, Nat.log2_lt hpos.ne']
    exact lt_of_le_of_lt h.mantissa_le (by norm_num)
  have hexp := h.exponent_ge
  have htop : (d.mantissa.log2 : Int) + d.exponent < 128 := by
    simpa [exceedsSingle, hpos.ne'] using hfits
  refine ⟨hpos, by omega, ?_, ?_⟩
  · unfold biased shift minExponent
    omega
  · unfold biased shift minExponent topExponent
    omega

/-- The parts of the double of a rounded number. -/
def Dyadic.raised (d : Dyadic) : Dyadic :=
  ⟨d.negative, d.mantissa <<< d.shift, d.exponent - d.shift⟩

/-- Rounding the parts of a rounded number drops only zeros: the bits that are dropped are among
those by which the mantissa was moved up. -/
theorem Dyadic.Short.dropped_raised (h : d.Short) (hn : d.Normal) :
    d.raised.dropped ≤ 52 ∧ 2 ^ d.raised.dropped ∣ d.raised.mantissa := by
  obtain ⟨hlow, hhigh⟩ := hn.shifted_bounds
  have hlog : d.raised.mantissa.log2 = 52 := by
    rw [Nat.log2_eq_iff (by simp only [raised, hiddenBit] at *; omega)]
    simp only [raised, hiddenBit] at *
    omega
  have hexp := h.exponent_ge
  have hdropped : d.raised.dropped = max 29 (d.shift - 149 - d.exponent).toNat := by
    rw [dropped, hlog]
    simp only [raised]
    congr 2
    omega
  have hshift : d.shift ≤ 52 := Nat.sub_le _ _
  rcases Nat.lt_or_ge d.mantissa (2 ^ 24) with hlt | hge
  · have hlog24 : d.mantissa.log2 < 24 := (Nat.log2_lt hn.pos.ne').2 hlt
    have hle : d.raised.dropped ≤ d.shift := by
      have : 29 ≤ d.shift := by unfold shift; omega
      omega
    have hmant : d.raised.mantissa = d.mantissa * 2 ^ d.shift := Nat.shiftLeft_eq _ _
    refine ⟨by omega, ?_⟩
    rw [hmant]
    exact Dvd.dvd.mul_left (Nat.pow_dvd_pow 2 hle) _
  · have hm : d.mantissa = 2 ^ 24 := le_antisymm h.mantissa_le hge
    have hs : d.shift = 28 := by
      rw [shift, hm]
      decide
    have hd : d.raised.dropped = 29 := by omega
    refine ⟨by omega, ?_⟩
    rw [hd]
    simp only [raised, hm, hs]
    decide

/-- The parts of a rounded number stand for the same double after another rounding. -/
theorem Dyadic.Short.toFloat_toSingle_raised (h : d.Short) (hn : d.Normal)
    (hfits : d.exceedsSingle = false) :
    d.raised.toSingle.exceedsSingle = false ∧ d.raised.toSingle.toFloat = d.toFloat := by
  obtain ⟨hle, q, hq⟩ := h.dropped_raised hn
  obtain ⟨hlow, hhigh⟩ := hn.shifted_bounds
  have hround : d.raised.toSingle = ⟨d.negative, q, d.exponent - d.shift + d.raised.dropped⟩ := by
    rw [toSingle_eq, hq, Nat.mul_comm, roundDiv_mul q (Nat.two_pow_pos _)]
    rfl
  have hmant : 2 ^ d.raised.dropped * q = d.mantissa <<< d.shift := hq.symm
  have hqpos : 0 < q := by
    rcases Nat.eq_zero_or_pos q with rfl | hpos
    · simp [hiddenBit] at hmant hlow
      omega
    · exact hpos
  have hbits : 2 ^ d.raised.dropped * 2 ^ (52 - d.raised.dropped) = hiddenBit := by
    rw [← Nat.pow_add, Nat.add_sub_cancel' hle]
    rfl
  have hqlog : q.log2 = 52 - d.raised.dropped := by
    rw [Nat.log2_eq_iff hqpos.ne']
    rw [← hmant] at hlow hhigh
    constructor
    · exact Nat.le_of_mul_le_mul_left (hbits.le.trans hlow) (Nat.two_pow_pos _)
    · refine Nat.lt_of_mul_lt_mul_left (a := 2 ^ d.raised.dropped) ?_
      rw [Nat.pow_succ, ← Nat.mul_assoc, hbits]
      omega
  have hlogle := hn.log_le
  have htop : (d.mantissa.log2 : Int) + d.exponent < 128 := by
    simpa [exceedsSingle, hn.pos.ne'] using hfits
  have hshift : (d.shift : Int) = 52 - d.mantissa.log2 := by
    unfold shift
    omega
  have hshift' : d.raised.toSingle.shift = d.raised.dropped := by
    rw [hround, shift, hqlog]
    omega
  have hbiased : d.raised.toSingle.biased = d.biased := by
    rw [biased, hshift', hround, biased]
    simp only
    omega
  have hnormal : d.raised.toSingle.Normal := by
    refine ⟨?_, ?_, hbiased ▸ hn.biased_pos, hbiased ▸ hn.biased_lt⟩
    · rw [hround]
      exact hqpos
    · rw [hround]
      simp only
      omega
  constructor
  · rw [hround]
    simp only [exceedsSingle, hqlog, Bool.and_eq_false_iff, decide_eq_false_iff_not]
    omega
  · have hsame : d.raised.toSingle.normalBits = d.normalBits := by
      have hneg : d.raised.toSingle.negative = d.negative := by rw [hround]
      have hfraction : d.raised.toSingle.mantissa <<< d.raised.dropped =
          d.mantissa <<< d.shift := by
        rw [hround, Nat.shiftLeft_eq, Nat.mul_comm]
        exact hmant
      rw [normalBits, hbiased, hshift', hneg, hfraction, normalBits]
    rw [hnormal.toFloat_eq, hn.toFloat_eq, hsame]

theorem ofFloat_infinity (negative : Bool) :
    ofFloat (infinity negative) = .infinite negative := by
  cases negative <;> decide +kernel

theorem ofFloat_zero (negative : Bool) (e : Int) :
    ofFloat (toFloat ⟨negative, 0, e⟩) = .finite ⟨negative, 0, minExponent⟩ := by
  simp only [toFloat, ↓reduceIte, ne_eq, not_true_eq_false, and_false]
  cases negative <;> decide +kernel

theorem toFloat_zero (negative : Bool) (e e' : Int) :
    toFloat ⟨negative, 0, e⟩ = toFloat ⟨negative, 0, e'⟩ := by
  simp [toFloat]

theorem toSingle_of_fits (hx : ofFloat x = .finite d)
    (hfits : d.toSingle.exceedsSingle = false) : toSingle x = d.toSingle.toFloat := by
  unfold toSingle
  rw [hx]
  exact if_neg (by simp [hfits])

theorem toSingle_of_exceeds (hx : ofFloat x = .finite d)
    (hexceeds : d.toSingle.exceedsSingle = true) : toSingle x = infinity d.toSingle.negative := by
  unfold toSingle
  rw [hx]
  exact if_pos hexceeds

theorem toSingle_of_infinite {negative : Bool} (hx : ofFloat x = .infinite negative) :
    toSingle x = x := by
  unfold toSingle
  rw [hx]

theorem toSingle_of_notANumber (hx : ofFloat x = .notANumber) : toSingle x = x := by
  unfold toSingle
  rw [hx]

theorem toSingle_zero (negative : Bool) (e : Int) :
    toSingle (toFloat ⟨negative, 0, e⟩) = toFloat ⟨negative, 0, e⟩ := by
  have hround : ∃ e', (mk negative 0 minExponent).toSingle = ⟨negative, 0, e'⟩ := by
    refine ⟨minExponent + (mk negative 0 minExponent).dropped, ?_⟩
    have hzero := roundDiv_mul 0 (Nat.two_pow_pos (mk negative 0 minExponent).dropped)
    rw [Nat.zero_mul] at hzero
    rw [toSingle_eq]
    simp only [hzero]
  obtain ⟨e', he'⟩ := hround
  rw [toSingle_of_fits (ofFloat_zero negative e) (by rw [he']; rfl), he']
  exact toFloat_zero _ _ _

/-- **Rounding to single precision is idempotent.** -/
theorem toSingle_toSingle (x : Float) : toSingle (toSingle x) = toSingle x := by
  cases hx : ofFloat x with
  | infinite negative => rw [toSingle_of_infinite hx, toSingle_of_infinite hx]
  | notANumber => rw [toSingle_of_notANumber hx, toSingle_of_notANumber hx]
  | finite d =>
    cases hfits : d.toSingle.exceedsSingle with
    | true =>
      rw [toSingle_of_exceeds hx hfits]
      exact toSingle_of_infinite (ofFloat_infinity _)
    | false =>
      rw [toSingle_of_fits hx hfits]
      have hshort := d.short_toSingle
      generalize d.toSingle = s at hfits hshort
      rcases Nat.eq_zero_or_pos s.mantissa with hzero | hpos
      · obtain ⟨negative, mantissa, exponent⟩ := s
        obtain rfl : mantissa = 0 := hzero
        exact toSingle_zero negative exponent
      · have hnormal := hshort.normal hpos hfits
        obtain ⟨hfits', hsame⟩ := hshort.toFloat_toSingle_raised hnormal hfits
        rw [toSingle_of_fits (ofFloat_toFloat hnormal) hfits']
        exact hsame

end Dataflow.Number
