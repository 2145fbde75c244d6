/-
**The integers of a range.**

A range counts with integers of 64 bits and ends early where the next one does not fit.  Its stop
has 64 bits itself, so an integer that does not fit is not before the stop, and ending early leaves
nothing out: a range has exactly the integers of its progression, taken without a bound, that come
before the stop.

Main results:

* `Range.map_valuesFrom` — **counting from an integer on** gives the progression from there up to
  the stop;
* `Range.values_exact` — **a range has the integers of its progression before the stop, and ends by
  itself**;
* `Range.strict_values` — it goes up or down all the way.
-/

import Dataflow.Operator.Range

namespace Dataflow.Range

open Int64

variable {r : Range} {i j : Int64} {k : Nat}

/-- The integer `k` steps after the start, without a bound. -/
def point (r : Range) (k : Nat) : Int := r.start.toInt + k * r.step.toInt

/-- Whether an integer is before the stop, on the side that the step comes from. -/
def Before (r : Range) (x : Int) : Prop :=
  if 0 < r.step.toInt then x < r.stop.toInt else r.stop.toInt < x

theorem inside_iff : r.inside i = true ↔ r.Before i.toInt := by
  have hpos : 0 < r.step ↔ 0 < r.step.toInt := lt_iff_toInt_lt
  by_cases h : 0 < r.step <;> simp [inside, Before, ← hpos, h, lt_iff_toInt_lt]

theorem toInt_step_ne_zero (hstep : r.step ≠ 0) : r.step.toInt ≠ 0 :=
  fun h => hstep (toInt_inj.1 h)

theorem toInt_of_next? (h : r.next? i = some j) : j.toInt = i.toInt + r.step.toInt := by
  simp only [next?, Option.ite_none_right_eq_some, Option.some.injEq] at h
  obtain ⟨⟨hlow, hhigh⟩, rfl⟩ := h
  have hmax : maxValue.toInt = 2 ^ 63 - 1 := by decide
  rw [toInt_ofInt_of_le (by simpa using hlow) (by omega)]

/-- What lies beyond an integer that is not before the stop is not before it either. -/
theorem not_before_add {x : Int} (hx : ¬r.Before x) (k : Nat) :
    ¬r.Before (x + k * r.step.toInt) := by
  unfold Before at hx ⊢
  split at hx
  · next hpos =>
    have hsteps : 0 ≤ (k : Int) * r.step.toInt := Int.mul_nonneg (by omega) (by omega)
    rw [if_pos hpos]
    omega
  · next hneg =>
    have hsteps : (k : Int) * r.step.toInt ≤ 0 :=
      Int.mul_nonpos_of_nonneg_of_nonpos (by omega) (by omega)
    rw [if_neg hneg]
    omega

/-- **An integer that does not fit is not before the stop.** -/
theorem not_before_of_next? (h : r.next? i = none) : ¬r.Before (i.toInt + r.step.toInt) := by
  simp only [next?, ite_eq_right_iff, reduceCtorEq, imp_false] at h
  have hmin := minValue_le_toInt r.stop
  have hmax := toInt_le r.stop
  have hi := minValue_le_toInt i
  have hi' := toInt_le i
  unfold Before
  split <;> omega

/-- **Counting from an integer on**: at most `count` integers, of the progression and before the
stop. -/
theorem map_valuesFrom (r : Range) (count : Nat) (i : Int64) :
    ∃ n, (r.valuesFrom count i).map toInt =
      (List.range n).map (fun k : Nat => i.toInt + k * r.step.toInt) ∧ ∀ k : Nat, k < n ↔
      k < count ∧ r.Before (i.toInt + k * r.step.toInt) := by
  induction count generalizing i with
  | zero => exact ⟨0, rfl, by simp⟩
  | succ count ih =>
    rw [valuesFrom]
    split
    · next hi =>
      rw [inside_iff] at hi
      have hfurther : ∀ k : Nat, i.toInt + ((k + 1 : Nat) : Int) * r.step.toInt =
          i.toInt + r.step.toInt + k * r.step.toInt := by
        intro k
        rw [Int.natCast_add, Int.add_mul]
        omega
      cases hj : r.next? i with
      | some j =>
        obtain ⟨n, hvalues, hn⟩ := ih j
        rw [toInt_of_next? hj] at hvalues hn
        refine ⟨n + 1, ?_, fun k => ?_⟩
        · simp [hvalues, List.range_succ_eq_map, ← hfurther]
        · cases k with
          | zero => simpa using hi
          | succ k => rw [hfurther, Nat.add_lt_add_iff_right, Nat.add_lt_add_iff_right, hn]
      | none =>
        refine ⟨1, by simp, fun k => ?_⟩
        cases k with
        | zero => simpa using hi
        | succ k =>
          rw [hfurther]
          exact iff_of_false (by omega) fun h => not_before_add (not_before_of_next? hj) k h.2
    · next hi =>
      rw [inside_iff] at hi
      exact ⟨0, rfl, fun k => iff_of_false (Nat.not_lt_zero k) fun h => not_before_add hi k h.2⟩

theorem map_take (r : Range) (count : Nat) :
    ∃ n, (r.take count).map toInt = (List.range n).map r.point ∧ ∀ k, k < n ↔ k < count ∧
      r.Before (r.point k) :=
  r.map_valuesFrom count r.start

/-- A step is at least one integer long, so that the stop is reached in as many steps as it is
away. -/
theorem not_before_far (hstep : r.step ≠ 0) :
    ¬r.Before (r.point (r.stop.toInt - r.start.toInt).natAbs) := by
  have hne := toInt_step_ne_zero hstep
  unfold Before point
  generalize hn : (r.stop.toInt - r.start.toInt).natAbs = n
  split
  · have hsteps : (n : Int) * 1 ≤ n * r.step.toInt :=
      Int.mul_le_mul_of_nonneg_left (by omega) (by omega)
    omega
  · have hsteps : (n : Int) * r.step.toInt ≤ n * -1 :=
      Int.mul_le_mul_of_nonneg_left (by omega) (by omega)
    omega

/-- A range that was made has integers up to its stop, and no more of them however many are asked
for. -/
theorem map_values (hstep : r.step ≠ 0) :
    ∃ n, r.values.map toInt = (List.range n).map r.point ∧
      (∀ k, k < n ↔ r.Before (r.point k)) ∧ ∀ count, r.take count = r.values.take count := by
  obtain ⟨n, hvalues, hn⟩ := r.map_take (r.stop.toInt - r.start.toInt).natAbs
  have hbefore : ∀ k, k < n ↔ r.Before (r.point k) := by
    intro k
    refine (hn k).trans (and_iff_right_of_imp fun hk => Nat.lt_of_not_le fun hle => ?_)
    obtain ⟨more, rfl⟩ := Nat.exists_eq_add_of_le hle
    refine not_before_add (not_before_far hstep) more ?_
    rwa [point, Int.natCast_add, Int.add_mul, ← Int.add_assoc] at hk
  refine ⟨n, hvalues, hbefore, fun count => ?_⟩
  obtain ⟨m, htake, hm⟩ := r.map_take count
  have hmin : m = min count n := by
    refine Nat.le_antisymm (Nat.le_of_not_lt fun h => ?_) (Nat.le_of_not_lt fun h => ?_)
    · have hboth := (hm (min count n)).1 h
      rw [← hbefore] at hboth
      omega
    · have hboth := (hm m).2 ⟨by omega, (hbefore m).1 (by omega)⟩
      omega
  refine List.map_inj_right (fun _ _ => toInt_inj.1) |>.1 ?_
  rw [htake, hmin, List.map_take, values, hvalues, ← List.map_take, List.take_range]

/-- **A range has the integers of its progression before the stop, and ends by itself.**  The
progression is taken without a bound, and `take` counts on only as long as it is asked to. -/
theorem values_exact (start stop : Int64) {step : Int64} (hstep : step ≠ 0) :
    ∃ r n, make start stop step = .ok r ∧
      r.values.map toInt = (List.range n).map (fun i : Nat => start.toInt + i * step.toInt) ∧
      (∀ i : Nat, i < n ↔ if 0 < step.toInt then start.toInt + i * step.toInt < stop.toInt
        else stop.toInt < start.toInt + i * step.toInt) ∧
      ∀ count, r.take count = r.values.take count := by
  obtain ⟨n, hvalues, hn, htake⟩ := map_values (r := ⟨start, stop, step⟩) hstep
  exact ⟨_, n, if_neg hstep, hvalues, hn, htake⟩

/-- The longest step there is, taken once: a second one would not fit. -/
theorem longestStep_values_exact :
    minValue ≠ 0 ∧ ∃ r, make 5 minValue minValue = .ok r ∧
    r.values.map toInt = [5, 5 + minValue.toInt] ∧ r.take 9 = r.values := by
  have hstep : minValue ≠ 0 := by decide
  obtain ⟨r, n, hmake, hvalues, hn, htake⟩ := values_exact 5 minValue hstep
  have hone : 1 < n := (hn 1).2 (by decide)
  have htwo : ¬2 < n := fun h => absurd ((hn 2).1 h) (by decide)
  obtain rfl : n = 2 := by omega
  have hlength : r.values.length = 2 := by
    rw [← List.length_map toInt, hvalues, List.length_map, List.length_range]
  refine ⟨hstep, r, hmake, hvalues.trans (by decide), ?_⟩
  rw [htake, List.take_of_length_le (by omega)]

/-- **A range goes up or down all the way**, if its step is not zero. -/
theorem strict_values (hstep : r.step ≠ 0) :
    r.values.Pairwise (· < ·) ∨ r.values.Pairwise (· > ·) := by
  obtain ⟨n, hvalues, -⟩ := map_values hstep
  have hlift : ∀ R : Int → Int → Prop, (∀ k l : Nat, k < l → R (r.point k) (r.point l)) →
      r.values.Pairwise fun i j => R i.toInt j.toInt := by
    intro R hR
    rw [← List.pairwise_map, hvalues, List.pairwise_map]
    exact List.pairwise_lt_range.imp fun hlt => hR _ _ hlt
  simp only [gt_iff_lt, lt_iff_toInt_lt]
  rcases Int.lt_or_gt_of_ne (toInt_step_ne_zero hstep) with hneg | hpos
  · refine .inr (hlift (fun x y => y < x) fun k l hlt => ?_)
    have := Int.mul_lt_mul_of_neg_right (Int.ofNat_lt.2 hlt) hneg
    simp only [point]
    omega
  · refine .inl (hlift (· < ·) fun k l hlt => ?_)
    have := Int.mul_lt_mul_of_pos_right (Int.ofNat_lt.2 hlt) hpos
    simp only [point]
    omega

end Dataflow.Range
