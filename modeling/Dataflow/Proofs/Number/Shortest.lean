/-
**Shortest decimals tell doubles apart.**

A double stands for all the numbers that round to it, its window.  The windows of different doubles
have no number in common: where two of them touch, the end belongs to the one with the even
mantissa.  The search for a shortest decimal always ends in the window, because the finest grid that
is tried has more than one point there.  So the shortest decimal of a double is that of no other.

Main results:

* `eq_of_ofFloat` — a finite double is determined by its parts;
* `eq_of_contains` — **windows are disjoint**;
* `contains_shortest` — **the shortest decimal lies in the window**;
* `eq_of_shortest` — hence different doubles have different shortest decimals.
-/

import Dataflow.Number.Shortest
import Mathlib.Algebra.Order.Field.Power
import Mathlib.Tactic.FieldSimp
import Mathlib.Tactic.Linarith
import Mathlib.Tactic.NormNum
import Mathlib.Tactic.Positivity
import Mathlib.Tactic.Ring

namespace Dataflow.Number

open Float.Model (UnpackedFloat)
open Float.Model.UnpackedFloat (unpackExponent)

/-! ### The parts of a double -/

/-- What the parts of a double satisfy: the mantissa has at most 53 bits, and exactly so many unless
the exponent is the smallest one. -/
structure Dyadic.Canonical (d : Dyadic) : Prop where
  mantissa_lt : d.mantissa < 2 * hiddenBit
  least : minExponent ≤ d.exponent
  greatest : d.exponent < topExponent + minExponent - 1
  full : minExponent < d.exponent → hiddenBit ≤ d.mantissa

/-- The bits of the double with the given parts. -/
def Dyadic.bits (d : Dyadic) : Nat := signBit d.negative +
    if d.mantissa < hiddenBit then d.mantissa
    else (d.exponent - minExponent).toNat * hiddenBit + d.mantissa

variable {x y : Float} {d d' : Dyadic} {q : ℚ} {tieUp : Bool} {w : Window}

theorem parts_of_ofFloat (h : Binary64.ofFloat x = .finite d) :
    d.negative = decide (signBit true ≤ x.toBits.toNat) ∧
      (x.toBits.toNat / hiddenBit % (topExponent + 1) = 0 ∧
      d.mantissa = x.toBits.toNat % hiddenBit ∧
        d.exponent = minExponent ∨
      x.toBits.toNat / hiddenBit % (topExponent + 1) ≠ topExponent ∧
        x.toBits.toNat / hiddenBit % (topExponent + 1) ≠ 0 ∧
        d.mantissa = x.toBits.toNat % hiddenBit + hiddenBit ∧
        d.exponent = (x.toBits.toNat / hiddenBit % (topExponent + 1) : Nat) + minExponent - 1) := by
  unfold Binary64.ofFloat at h
  dsimp only at h
  by_cases htop : x.toBits.toNat / hiddenBit % (topExponent + 1) = topExponent
  · rw [if_pos htop] at h
    split at h <;> cases h
  · rw [if_neg htop] at h
    by_cases hzero : x.toBits.toNat / hiddenBit % (topExponent + 1) = 0
    · rw [if_pos hzero] at h
      cases h
      exact ⟨rfl, .inl ⟨hzero, rfl, rfl⟩⟩
    · rw [if_neg hzero] at h
      cases h
      exact ⟨rfl, .inr ⟨htop, hzero, rfl, rfl⟩⟩

theorem canonical_of_ofFloat (h : Binary64.ofFloat x = .finite d) : d.Canonical := by
  obtain ⟨-, hparts⟩ := parts_of_ofFloat h
  simp only [hiddenBit, topExponent, minExponent] at hparts
  constructor <;> simp only [hiddenBit, topExponent, minExponent] <;> omega

theorem toBits_of_ofFloat (h : Binary64.ofFloat x = .finite d) : x.toBits.toNat = d.bits := by
  have hlt := x.toBits.toNat_lt
  obtain ⟨hsign, hparts⟩ := parts_of_ofFloat h
  have hnegative : signBit d.negative = x.toBits.toNat / signBit true * signBit true := by
    rw [hsign]
    simp only [signBit, decide_eq_true_eq, ↓reduceIte]
    split <;> omega
  unfold Dyadic.bits
  rw [hnegative]
  split <;> simp only [hiddenBit, topExponent, minExponent, signBit, ↓reduceIte] at * <;> omega

theorem eq_of_toBits (h : x.toBits = y.toBits) : x = y := by
  obtain ⟨⟨bits, _⟩⟩ := x
  obtain ⟨⟨bits', _⟩⟩ := y
  obtain rfl : bits = bits' := h
  rfl

/-- **A finite double is determined by its parts.** -/
theorem eq_of_ofFloat (hx : Binary64.ofFloat x = .finite d) (hy : Binary64.ofFloat y = .finite d) :
    x = y :=
  eq_of_toBits (UInt64.toNat_inj.1 ((toBits_of_ofFloat hx).trans (toBits_of_ofFloat hy).symm))

theorem toNat_unpackExponent (x : Float) : (@unpackExponent .binary64 x.toBits.toBitVec).toNat =
    x.toBits.toNat / hiddenBit % (topExponent + 1) := by
  simp only [unpackExponent, BitVec.toNat_cast, BitVec.extractLsb_toNat, Nat.shiftRight_eq_div_pow,
    UInt64.toNat_toBitVec, hiddenBit, topExponent]

theorem exists_ofFloat_of_isFinite (h : x.isFinite = true) :
    ∃ d, Binary64.ofFloat x = .finite d := by
  have htop : x.toBits.toNat / hiddenBit % (topExponent + 1) ≠ topExponent := by
    intro htop
    rw [← toNat_unpackExponent] at htop
    have hones : @unpackExponent .binary64 x.toBits.toBitVec = -1#11 := BitVec.eq_of_toNat_eq htop
    have hfinite : (UnpackedFloat.unpack .binary64 x.toBits.toBitVec).isFinite = true := h
    unfold UnpackedFloat.unpack at hfinite
    simp only [hones, ↓reduceIte] at hfinite
    split at hfinite <;> cases hfinite
  unfold Binary64.ofFloat
  dsimp only
  rw [if_neg htop]
  split <;> exact ⟨_, rfl⟩

/-! ### Windows as sets of numbers -/

/-- The number that a decimal stands for. -/
def Decimal.value (d : Decimal) : ℚ := d.digits * 10 ^ d.exponent

/-- The numbers in a window. -/
def Window.Contains (w : Window) (q : ℚ) : Prop :=
  if w.closed then w.low * 2 ^ w.exponent ≤ q ∧ q ≤ w.high * 2 ^ w.exponent
  else w.low * 2 ^ w.exponent < q ∧ q < w.high * 2 ^ w.exponent

theorem zpow_mul_pow_toNat {a : ℚ} (ha : a ≠ 0) (e : Int) :
    a ^ e * a ^ (-e).toNat = a ^ e.toNat := by
  obtain ⟨n, rfl | rfl⟩ := e.eq_nat_or_neg
  · simp
  · simp [ha]

theorem gridRatio_spec (p e : Int) :
    ((gridRatio p e).1 : ℚ) * 2 ^ e = (gridRatio p e).2 * 10 ^ p := by
  have htwo := zpow_mul_pow_toNat (a := 2) (by norm_num) e
  have hten := zpow_mul_pow_toNat (a := 10) (by norm_num) p
  simp only [gridRatio, Nat.shiftLeft_eq, Nat.pow_eq, Nat.cast_mul, Nat.cast_pow, Nat.cast_ofNat]
  calc (10 : ℚ) ^ p.toNat * 2 ^ (-e).toNat * 2 ^ e =
    10 ^ p.toNat * (2 ^ e * 2 ^ (-e).toNat) := by ring
    _ = 10 ^ p * 10 ^ (-p).toNat * 2 ^ e.toNat := by rw [htwo, hten]
    _ = 10 ^ (-p).toNat * 2 ^ e.toNat * 10 ^ p := by ring

theorem gridRatio_pos (p e : Int) : 0 < (gridRatio p e).1 ∧ 0 < (gridRatio p e).2 := by
  simp only [gridRatio, Nat.shiftLeft_eq, Nat.pow_eq]
  constructor <;> positivity

theorem Window.holds_iff (w : Window) (p : Int) (n : Nat) :
    w.holds (gridRatio p w.exponent).1 (gridRatio p w.exponent).2 n = true ↔
      w.Contains (n * 10 ^ p) := by
  have hspec := gridRatio_spec p w.exponent
  obtain ⟨-, hden⟩ := gridRatio_pos p w.exponent
  generalize gridRatio p w.exponent = ratio at hspec hden
  have hunit : (0 : ℚ) < 2 ^ w.exponent := by positivity
  have hden : (0 : ℚ) < ratio.2 := by exact_mod_cast hden
  have hpoint : (n * 10 ^ p : ℚ) = (n * ratio.1) / ratio.2 * 2 ^ w.exponent := by
    field_simp
    rw [mul_assoc, mul_assoc, hspec, mul_comm (ratio.2 : ℚ)]
  unfold holds Contains
  rw [hpoint]
  simp only [mul_le_mul_iff_left₀ hunit, mul_lt_mul_iff_left₀ hunit,
    le_div_iff₀ hden, div_le_iff₀ hden, lt_div_iff₀ hden, div_lt_iff₀ hden]
  split
  · simp only [Bool.and_eq_true, decide_eq_true_eq]
    norm_cast
  · simp only [Bool.and_eq_true, decide_eq_true_eq]
    norm_cast

/-! ### Windows are disjoint -/

theorem Dyadic.low_window (d : Dyadic) : d.window.low = 4 * d.mantissa - 1 ∧
      d.mantissa = hiddenBit ∨ d.window.low = 4 * d.mantissa - 2 ∧
      (d.mantissa ≠ hiddenBit ∨ d.exponent = minExponent) := by
  unfold window
  dsimp only
  split
  · next hpower => exact .inl ⟨rfl, hpower.1⟩
  · next hpower => exact .inr ⟨rfl, by tauto⟩

/-- Of two doubles whose windows have a common number, the window of neither lies above that of the
other. -/
theorem low_le_high {k : Nat} (h : d.window.Contains q) (h' : d'.window.Contains q)
    (hk : d'.exponent = d.exponent + k) : d'.window.low * 2 ^ k ≤ 4 * d.mantissa + 2 ∧
      (d.mantissa % 2 = 1 ∨ d'.mantissa % 2 = 1 → d'.window.low * 2 ^ k < 4 * d.mantissa + 2) := by
  have hunit : (0 : ℚ) < 2 ^ d.window.exponent := by positivity
  have hscale : (2 : ℚ) ^ d'.window.exponent = 2 ^ k * 2 ^ d.window.exponent := by
    have hsum : d'.window.exponent = k + d.window.exponent := by
      simp only [Dyadic.window]
      omega
    rw [hsum, zpow_add₀ (by norm_num), zpow_natCast]
  have hclosed : ∀ d : Dyadic, d.window.closed = true ↔ d.mantissa % 2 = 0 := by
    simp [Dyadic.window]
  have hupper : q ≤ d.window.high * 2 ^ d.window.exponent ∧
      (d.mantissa % 2 = 1 → q < d.window.high * 2 ^ d.window.exponent) := by
    unfold Window.Contains at h
    split at h <;> simp_all [le_of_lt]
  have hlower : d'.window.low * 2 ^ k * 2 ^ d.window.exponent ≤ q ∧
      (d'.mantissa % 2 = 1 → d'.window.low * 2 ^ k * 2 ^ d.window.exponent < q) := by
    unfold Window.Contains at h'
    rw [hscale, ← mul_assoc] at h'
    split at h' <;> simp_all [le_of_lt]
  have hhigh : d.window.high = 4 * d.mantissa + 2 := rfl
  rw [← hhigh]
  constructor
  · have hle := hlower.1.trans hupper.1
    rw [mul_le_mul_iff_left₀ hunit] at hle
    exact_mod_cast hle
  · intro hodd
    have hlt : (d'.window.low * 2 ^ k * 2 ^ d.window.exponent : ℚ) <
        d.window.high * 2 ^ d.window.exponent := by
      obtain hodd | hodd := hodd
      · exact hlower.1.trans_lt (hupper.2 hodd)
      · exact (hlower.2 hodd).trans_le hupper.1
    rw [mul_lt_mul_iff_left₀ hunit] at hlt
    exact_mod_cast hlt

/-- A number in the window of one double is not in that of a greater one. -/
theorem not_contains_of_lt (hd : d.Canonical) (hd' : d'.Canonical) (h : d.window.Contains q)
    (hlt : d.exponent < d'.exponent ∨ d.exponent = d'.exponent ∧ d.mantissa < d'.mantissa) :
    ¬d'.window.Contains q := by
  intro h'
  have hlow := d'.low_window
  obtain hexponent | ⟨hexponent, hmantissa⟩ := hlt
  · -- The smaller window ends at most where that of a power of two starts, and there only if it is
    -- open.
    obtain ⟨k, hk⟩ := Int.eq_ofNat_of_zero_le (sub_nonneg.2 hexponent.le)
    obtain ⟨hle, hstrict⟩ := low_le_high (k := k) h h' (by omega)
    have hdouble : d'.window.low * 2 ≤ d'.window.low * 2 ^ k :=
      Nat.mul_le_mul_left _ (Nat.le_self_pow (by omega) 2)
    have hleast := hd.least
    have hmantissa := hd.mantissa_lt
    have hfull := hd'.full (by omega)
    simp only [hiddenBit] at *
    omega
  · -- Of two neighbours one has an odd mantissa, and its window is open.
    obtain ⟨hle, hstrict⟩ := low_le_high (k := 0) h h' (by omega)
    rw [pow_zero, mul_one] at hle hstrict
    omega

/-- **Windows are disjoint.** -/
theorem eq_of_contains (hd : d.Canonical) (hd' : d'.Canonical) (h : d.window.Contains q)
    (h' : d'.window.Contains q) : d.mantissa = d'.mantissa ∧ d.exponent = d'.exponent := by
  have hnot := mt (not_contains_of_lt hd hd' h) (not_not_intro h')
  have hnot' := mt (not_contains_of_lt hd' hd h') (not_not_intro h)
  omega

/-! ### The search ends in the window -/

theorem Window.holds_of_pick? {p : Int} {n : Nat} (h : w.pick? tieUp p = some n) :
    w.holds (gridRatio p w.exponent).1 (gridRatio p w.exponent).2 n = true := by
  unfold pick? at h
  dsimp only at h
  split at h <;> grind

/-- A grid as fine as the unit of a window has a point there. -/
theorem Window.exists_pick? {p : Int} (tieUp : Bool)
    (hgrid : (gridRatio p w.exponent).1 ≤ (gridRatio p w.exponent).2) (hlow : w.low < w.mid)
    (hhigh : w.mid < w.high) : ∃ n, w.pick? tieUp p = some n := by
  obtain ⟨hnum, hden⟩ := gridRatio_pos p w.exponent
  unfold pick?
  generalize gridRatio p w.exponent = ratio at hgrid hnum hden
  obtain ⟨num, den⟩ := ratio
  dsimp only at *
  have hbelow : w.holds num den (w.mid * den / num) = true := by
    have hfloor : w.mid * den / num * num ≤ w.mid * den := Nat.div_mul_le_self _ _
    have hnext : w.mid * den < w.mid * den / num * num + num := by
      have := Nat.lt_div_mul_add hnum (a := w.mid * den)
      omega
    have hbottom : w.low * den + den ≤ w.mid * den := by
      rw [← Nat.succ_mul]
      exact Nat.mul_le_mul_right _ hlow
    have htop : w.mid * den < w.high * den := Nat.mul_lt_mul_of_pos_right hhigh hden
    unfold holds
    split <;> simp only [Bool.and_eq_true, decide_eq_true_eq] <;> omega
  rw [hbelow]
  cases w.holds num den (w.mid * den / num + 1) with
  | false => exact ⟨_, rfl⟩
  | true =>
    dsimp only
    split
    · exact ⟨_, rfl⟩
    · split
      · exact ⟨_, rfl⟩
      · split <;> exact ⟨_, rfl⟩

/-- Powers of two bases are compared by a ratio of their logarithms. -/
theorem pow_le_pow_of_ratio {a b m n k l : Nat} (hm : m ≠ 0) (hb : 0 < b) (hbase : a ^ m ≤ b ^ n)
    (h : n * k ≤ m * l) : a ^ k ≤ b ^ l := by
  rw [← Nat.pow_le_pow_iff_left hm]
  calc (a ^ k) ^ m = (a ^ m) ^ k := by rw [← pow_mul, ← pow_mul, mul_comm]
    _ ≤ (b ^ n) ^ k := Nat.pow_le_pow_left hbase k
    _ = b ^ (n * k) := by rw [← pow_mul]
    _ ≤ b ^ (m * l) := Nat.pow_le_pow_right hb h
    _ = (b ^ l) ^ m := by rw [← pow_mul, mul_comm]

/-- The last grid that is tried is as fine as the unit of the window. -/
theorem gridRatio_ceiling_le (hd : d.Canonical) :
    (gridRatio (d.decimalCeiling - 23) d.window.exponent).1 ≤
      (gridRatio (d.decimalCeiling - 23) d.window.exponent).2 := by
  have hlog : d.mantissa.log2 ≤ 52 := by
    by_cases hzero : d.mantissa = 0
    · rw [hzero]
      decide
    · have := (Nat.log2_lt hzero).2 (show d.mantissa < 2 ^ 53 from hd.mantissa_lt)
      omega
  have hleast := hd.least
  have hgreatest := hd.greatest
  simp only [topExponent, minExponent] at hleast hgreatest
  have hceiling : 4096 * (d.decimalCeiling - 23) ≤ 1233 * (d.exponent + 53) - 86016 := by
    unfold Dyadic.decimalCeiling
    omega
  simp only [gridRatio, Dyadic.window, Nat.pow_eq, Nat.shiftLeft_eq]
  generalize d.decimalCeiling - 23 = p at hceiling
  obtain ⟨a, rfl | rfl⟩ := p.eq_nat_or_neg
  · have hpow : 10 ^ a ≤ 2 ^ (d.exponent - 2).toNat :=
      pow_le_pow_of_ratio (m := 3) (n := 10) (by decide) (by decide) (by decide) (by omega)
    have hnone : (2 - d.exponent).toNat = 0 := by omega
    simpa [hnone] using hpow
  · have hpow : 2 ^ (-(d.exponent - 2)).toNat ≤ 10 ^ a :=
      pow_le_pow_of_ratio (m := 93) (n := 28) (by decide) (by decide) (by norm_num) (by omega)
    have hone : 1 ≤ 2 ^ (d.exponent - 2).toNat := Nat.one_le_two_pow
    simpa using hpow.trans (Nat.le_mul_of_pos_right _ hone)

/-- **The shortest decimal of a double lies in its window.** -/
theorem contains_shortest (hd : d.Canonical) (hpos : 0 < d.mantissa) (tieUp : Bool) :
    d.window.Contains (d.shortest tieUp).value := by
  have hlow : d.window.low < d.window.mid := by
    have := d.low_window
    have hmid : d.window.mid = 4 * d.mantissa := rfl
    omega
  obtain ⟨n, hn⟩ :=
    Window.exists_pick? tieUp (gridRatio_ceiling_le hd) hlow (by simp [Dyadic.window])
  unfold Dyadic.shortest
  dsimp only
  cases hfind : (List.range 24).findSome? fun i : Nat =>
      (d.window.pick? tieUp (d.decimalCeiling - i)).map fun digits =>
        (⟨digits, d.decimalCeiling - i⟩ : Decimal) with
  | none =>
    have hnone := List.findSome?_eq_none_iff.1 hfind 23 (by simp)
    simp [hn] at hnone
  | some decimal =>
    obtain ⟨i, -, hi⟩ := List.exists_of_findSome?_eq_some hfind
    obtain ⟨m, hm, rfl⟩ := Option.map_eq_some_iff.1 hi
    exact (Window.holds_iff _ _ _).1 (Window.holds_of_pick? hm)

theorem digits_shortest_pos (hd : d.Canonical) (hpos : 0 < d.mantissa) (tieUp : Bool) :
    0 < (d.shortest tieUp).digits := by
  have hlow : 0 < d.window.low := by
    have := d.low_window
    omega
  have hbottom : (0 : ℚ) < d.window.low * 2 ^ d.window.exponent := by positivity
  have hvalue : 0 < (d.shortest tieUp).value := by
    have hcontains := contains_shortest hd hpos tieUp
    unfold Window.Contains at hcontains
    split at hcontains <;> linarith [hcontains.1]
  by_contra hzero
  rw [Decimal.value, Nat.eq_zero_of_not_pos hzero, Nat.cast_zero, zero_mul] at hvalue
  exact lt_irrefl _ hvalue

/-- **Different doubles have different shortest decimals.** -/
theorem eq_of_shortest (hd : d.Canonical) (hd' : d'.Canonical) (hpos : 0 < d.mantissa)
    (hpos' : 0 < d'.mantissa) (h : (d.shortest tieUp).value = (d'.shortest tieUp).value) :
    d.mantissa = d'.mantissa ∧ d.exponent = d'.exponent :=
  eq_of_contains hd hd' (contains_shortest hd hpos tieUp) (h ▸ contains_shortest hd' hpos' tieUp)

end Dataflow.Number
