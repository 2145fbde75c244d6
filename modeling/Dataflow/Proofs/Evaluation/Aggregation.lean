/-
**Aggregates of groups.**

Aggregates are kept per group while the rows are gone through, and every row changes the aggregates
of its group. What they are in the end depends on the rows of the group only: their number, the sum
of their integers, or the least or greatest of them.  A sum is cut to the width of its field after
every row; that comes to the same as cutting the exact sum once.  None of this depends on the order
of the rows, so permuting the rows of the input permutes the rows of the output.

Main definitions:

* `Aggregate.ofRows` — an aggregate of some rows, computed from all of them at once;
* `Accumulator.after` — the state of an aggregate after some rows;
* `bestOf` — the least or greatest of some integers, found one after the other;
* `aggregateStep` — what a row does to the aggregates of its group;
* `aggregatedRows` — a row per key: the key, and behind it the aggregates of its rows.

Main results:

* `Kind.wrap_ofInt` — cutting an integer to a width reduces it to the range of the width;
* `bestOf_lt`, `bestOf_gt` — the best of some integers is the least or the greatest of them;
* `Accumulator.update_after` — one more row takes the state after some rows to the state after all
  of them;
* `gather_aggregateStep` — the rows of one key come to their aggregates;
* `run_groupBy` — **groups have the aggregates of their rows**, and the order of rows does not
  matter.
-/

import Dataflow.Proofs.Evaluation.Grouping
import Dataflow.Proofs.Expr.Totality
import Dataflow.Proofs.Optimization.Rows
import Dataflow.Proofs.Value.Identity
import Mathlib.Algebra.BigOperators.Group.List.Basic

namespace Dataflow

open List Option Outcome Aggregate Accumulator Int64 TupleType

variable {bits : Nat} {k : Kind}

/-! ### Integers of a kind -/

/-- Integers that are reduced to a range of at most 64 bits are integers of 64 bits. -/
theorem toInt_ofInt_bmod (n : Int) (hbits : bits ≤ 64) :
    (ofInt (n.bmod (2 ^ bits))).toInt = n.bmod (2 ^ bits) := by
  have hpos : 0 < 2 ^ bits := Nat.two_pow_pos bits
  have hsize : 2 ^ bits ≤ 2 ^ 64 := Nat.pow_le_pow_right (by decide) hbits
  have hle := Int.le_bmod (x := n) hpos
  have hlt := Int.bmod_lt (x := n) hpos
  exact toInt_ofInt_of_le (by omega) (by omega)

namespace Kind

theorem bits_le (h : k.bits? = some bits) : bits ≤ 64 := by
  cases k <;> cases h <;> decide

theorem wrap_ofInt (hbits : k.bits? = some bits) (n : Int) :
    k.wrap (ofInt n) = ofInt (n.bmod (2 ^ bits)) := by
  rw [← toInt_inj, toInt_ofInt_bmod n (bits_le hbits)]
  cases k with
  | int8 =>
    cases hbits
    rw [wrap, toInt8_ofInt, Int8.toInt_toInt64, Int8.toInt_ofInt]
    rfl
  | int16 =>
    cases hbits
    rw [wrap, toInt16_ofInt, Int16.toInt_toInt64, Int16.toInt_ofInt]
    rfl
  | int32 =>
    cases hbits
    rw [wrap, toInt32_ofInt, Int32.toInt_toInt64, Int32.toInt_ofInt]
    rfl
  | int64 =>
    cases hbits
    exact toInt_ofInt
  | bool | float32 | float64 => cases hbits

end Kind

/-! ### Aggregates of rows -/

/-- The integers in a field along the rows. -/
def fieldIntegers (rows : Rows) (position : Nat) : List Int :=
  rows.filterMap fun row => (row[position]?.bind Value.int?).map toInt

namespace Aggregate

/-- The integers in the field that an aggregate looks at. -/
def integers (a : Aggregate) (rows : Rows) : List Int := (a.field.map (fieldIntegers rows)).getD []

/-- The kind of the field that an aggregate looks at. -/
def kind? (input : TupleType) (a : Aggregate) : Option Kind :=
  (a.field.bind input.type?).bind FieldType.kind?

/-- An aggregate of some rows: their number, the exact sum of their integers, reduced to the range
of the kind of their field, or the least or the greatest of them. -/
def ofRows (input : TupleType) (a : Aggregate) (rows : Rows) : Int :=
  match a.fn with
  | .count => rows.length
  | .sum => (a.integers rows).sum.bmod (2 ^ ((a.kind? input).bind Kind.bits?).getD 64)
  | .min => (a.integers rows).min?.getD 0
  | .max => (a.integers rows).max?.getD 0

/-- The value of an aggregate after some rows; there is none before the first one. -/
def seen (input : TupleType) (a : Aggregate) (rows : Rows) : Option Value :=
  if rows = [] then none else some (.int (ofInt (a.ofRows input rows)))

end Aggregate

/-- The state of an aggregate after some rows. -/
def Accumulator.after (input : TupleType) (a : Aggregate) (rows : Rows) : Accumulator :=
  match a.fn with
  | .count => count (ofInt (a.ofRows input rows))
  | .sum => sum (a.kind? input) (a.seen input rows)
  | .min => least (a.seen input rows)
  | .max => greatest (a.seen input rows)

/-! ### The best of some integers -/

/-- The best of some integers: each of them takes the place of the best before it, if it compares to
it as `keep` says. -/
def bestOf (keep : Ordering) : List Int → Option Int
  | [] => none
  | x :: xs => some (xs.foldl (fun best y => if compare y best = keep then y else best) x)

theorem bestOf_lt (xs : List Int) : bestOf .lt xs = xs.min? := by
  cases xs with
  | nil => rfl
  | cons x xs =>
    have hstep : (fun best y : Int => if compare y best = .lt then y else best) = min := by
      funext best y
      by_cases hless : y < best
      · rw [if_pos (compare_lt_iff_lt.2 hless), Int.min_eq_right (Int.le_of_lt hless)]
      · rw [if_neg (mt compare_lt_iff_lt.1 hless), Int.min_eq_left (Int.not_lt.1 hless)]
    rw [bestOf, hstep, min?_cons']

theorem bestOf_gt (xs : List Int) : bestOf .gt xs = xs.max? := by
  cases xs with
  | nil => rfl
  | cons x xs =>
    have hstep : (fun best y : Int => if compare y best = .gt then y else best) = max := by
      funext best y
      by_cases hless : best < y
      · rw [if_pos (compare_gt_iff_gt.2 hless), Int.max_eq_right (Int.le_of_lt hless)]
      · rw [if_neg (mt compare_gt_iff_gt.1 hless), Int.max_eq_left (Int.not_lt.1 hless)]
    rw [bestOf, hstep, max?_cons']

section

variable {keep : Ordering} {xs : List Int} {best : Int}

theorem exists_bestOf (h : xs ≠ []) : ∃ best, bestOf keep xs = some best := by
  obtain ⟨x, xs, rfl⟩ := exists_cons_of_ne_nil h
  exact ⟨_, rfl⟩

theorem bestOf_concat (h : bestOf keep xs = some best) (x : Int) :
    bestOf keep (xs ++ [x]) = some (if compare x best = keep then x else best) := by
  cases xs with
  | nil => cases h
  | cons y xs =>
    rw [bestOf, some_inj] at h
    rw [cons_append, bestOf, foldl_append, h]
    rfl

theorem mem_of_bestOf (h : bestOf keep xs = some best) : best ∈ xs := by
  induction xs using reverseRecOn generalizing best with
  | nil => cases h
  | append_singleton xs x ih =>
    by_cases hne : xs = []
    · subst hne
      cases h
      exact mem_singleton_self x
    · obtain ⟨old, hold⟩ : ∃ old, bestOf keep xs = some old := exists_bestOf hne
      rw [bestOf_concat hold, some_inj] at h
      subst h
      split
      · simp
      · exact mem_append_left _ (ih hold)

end

/-! ### One row more -/

section

variable {input : TupleType} {a : Aggregate} {t : FieldType} {field : Nat} {k : Kind}
  {rows : Rows} {row : Row}

/-- An aggregate whose type is not floating counts rows, or looks at a field of an integer kind. -/
theorem Aggregate.field_of_type (h : a.type input = .ok t) (hfloat : t.isFloat = false)
    (hfn : a.fn ≠ .count) :
    ∃ field k, a.field = some field ∧ input.type? field = some (.atomic k) ∧
      k.isInteger = true := by
  obtain ⟨hnumeric, field, hfield, htype⟩ := type_eq_ok h hfn
  cases t with
  | atomic k =>
    have hk : (k.isInteger || k.isFloat) = true := hnumeric
    have hnot : k.isFloat = false := hfloat
    rw [hnot, Bool.or_false] at hk
    exact ⟨field, k, hfield, htype, hk⟩
  | tuple | array => cases hnumeric

theorem int_of_admits (htype : input.type? field = some (.atomic k)) (hk : k.isInteger = true)
    (hrow : input.admits row = true) : ∃ i, row[field]? = some (.int i) ∧ k.holds i = true := by
  obtain ⟨v, hv, hadmits⟩ := get_of_forall₂ (admits_iff.1 hrow) htype
  obtain ⟨i, rfl⟩ := Kind.int_of_fits hk (Kind.fits_of_admits hadmits)
  exact ⟨i, hv, hadmits⟩

theorem Aggregate.integers_concat {i : Int64} (hfield : a.field = some field)
    (hi : row[field]? = some (.int i)) :
    a.integers (rows ++ [row]) = a.integers rows ++ [i.toInt] := by
  simp [integers, hfield, fieldIntegers, hi, Value.int?]

theorem Aggregate.integers_ne_nil (hfield : a.field = some field)
    (htype : input.type? field = some (.atomic k)) (hk : k.isInteger = true)
    (hrows : ∀ row ∈ rows, input.admits row = true) (hne : rows ≠ []) :
    a.integers rows ≠ [] := by
  obtain ⟨first, rest, rfl⟩ := exists_cons_of_ne_nil hne
  obtain ⟨i, hi, -⟩ := int_of_admits htype hk (hrows first mem_cons_self)
  simp [integers, hfield, fieldIntegers, hi, Value.int?]

theorem Aggregate.bounds_of_mem {n : Int} (h : n ∈ a.integers rows) : -2 ^ 63 ≤ n ∧ n < 2 ^ 63 := by
  unfold integers at h
  cases hfield : a.field with
  | none => simp [hfield] at h
  | some field =>
    simp only [hfield, fieldIntegers, map_some, getD_some, mem_filterMap,
      map_eq_some_iff] at h
    obtain ⟨_, -, i, -, rfl⟩ := h
    exact ⟨i.le_toInt, i.toInt_lt⟩

end

section

variable {input : TupleType} {a : Aggregate} {t : FieldType} {field : Nat} {k : Kind}
  {rows : Rows} {row : Row} {i : Int64} (hfield : a.field = some field)
  (htype : input.type? field = some (.atomic k)) (hk : k.isInteger = true)
  (hrows : ∀ row ∈ rows, input.admits row = true) (hi : row[field]? = some (.int i))
include hfield htype hk hi

/-- **Cutting a sum after every row is cutting the exact sum once.** -/
theorem Accumulator.addTo_seen (hfn : a.fn = .sum) (hholds : k.holds i = true) :
    addTo (a.kind? input) (a.seen input rows) (.int i) =
      .ok (.int (ofInt (a.ofRows input (rows ++ [row])))) := by
  obtain ⟨bits, hbits⟩ := isSome_iff_exists.1 hk
  have hkind : a.kind? input = some k := by simp [kind?, hfield, htype, FieldType.kind?]
  have hof : ∀ rows, a.ofRows input rows = (a.integers rows).sum.bmod (2 ^ bits) := by
    simp [ofRows, hfn, hkind, hbits]
  rw [hkind, hof, integers_concat hfield hi, sum_append, sum_singleton]
  by_cases hne : rows = []
  · subst hne
    have hsingle : i = ofInt (i.toInt.bmod (2 ^ bits)) := by
      rw [← Kind.wrap_ofInt hbits, ofInt_toInt, (Kind.holds_iff.1 hholds).2]
    simpa [seen, addTo, integers, hfield, fieldIntegers] using hsingle
  · -- The sum so far is reduced already; reducing it once more with the integer added changes
    -- nothing.
    rw [seen, if_neg hne, hof,
      addTo, ← Int.bmod_add_bmod, ← Kind.wrap_ofInt hbits (_ + _), ofInt_add,
      ofInt_toInt]
    rfl

include hrows

/-- The better of the best so far and an integer more is the best of all. -/
theorem Accumulator.better_seen {keep : Ordering}
    (hof : ∀ rows, a.ofRows input rows = (bestOf keep (a.integers rows)).getD 0) :
    better keep (a.seen input rows) (.int i) =
      .ok (.int (ofInt (a.ofRows input (rows ++ [row])))) := by
  rw [hof, integers_concat hfield hi]
  by_cases hne : rows = []
  · subst hne
    simp [seen, better, integers, hfield, fieldIntegers, bestOf]
  · obtain ⟨best, hbest⟩ := exists_bestOf (integers_ne_nil hfield htype hk hrows hne)
    -- The best so far is one of the integers, so it is not changed by being kept in 64 bits.
    obtain ⟨hle, hlt⟩ := bounds_of_mem (mem_of_bestOf hbest)
    rw [seen, if_neg hne, hof, bestOf_concat hbest, hbest, getD_some, getD_some, better,
      Value.compare, toInt_ofInt_of_le hle hlt, pure_eq_ok, ok_bind]
    split <;> simp

end

section

variable {input : TupleType} {a : Aggregate} {t : FieldType} {rows : Rows} {row : Row}

/-- **One more row takes the state after some rows to the state after all of them.** -/
theorem Accumulator.update_after (h : a.type input = .ok t) (hfloat : t.isFloat = false)
    (hrows : ∀ row ∈ rows, input.admits row = true) (hrow : input.admits row = true) :
    (after input a rows).update (a.field.bind (row[·]?)) = .ok (after input a (rows ++ [row])) := by
  have hseen : a.seen input (rows ++ [row]) =
      some (.int (ofInt (a.ofRows input (rows ++ [row])))) := by
    rw [seen, if_neg (by simp)]
  by_cases hcount : a.fn = .count
  · simp [after, hcount, update, ofRows, ofInt_add]
  · obtain ⟨field, k, hfield, htype, hk⟩ := field_of_type h hfloat hcount
    obtain ⟨i, hi, hholds⟩ := int_of_admits htype hk hrow
    have hvalue : a.field.bind (row[·]?) = some (.int i) := by rw [hfield, bind_some, hi]
    rw [hvalue]
    cases hfn : a.fn with
    | count => exact absurd hfn hcount
    | sum => simp [after, hfn, update, hseen, addTo_seen hfield htype hk hi hfn hholds]
    | min =>
      have hof : ∀ rows, a.ofRows input rows = (bestOf .lt (a.integers rows)).getD 0 := by
        simp [ofRows, hfn, bestOf_lt]
      simp [after, hfn, update, hseen, better_seen hfield htype hk hrows hi hof]
    | max =>
      have hof : ∀ rows, a.ofRows input rows = (bestOf .gt (a.integers rows)).getD 0 := by
        simp [ofRows, hfn, bestOf_gt]
      simp [after, hfn, update, hseen, better_seen hfield htype hk hrows hi hof]

theorem Accumulator.start_eq (input : TupleType) (a : Aggregate) :
    start a (a.kind? input) = after input a [] := by
  unfold start after
  split <;> simp [ofRows, seen, *]

theorem Accumulator.value_after (hne : rows ≠ []) :
    (after input a rows).value = .int (ofInt (a.ofRows input rows)) := by
  unfold after
  split <;> simp [value, seen, hne]

end

/-! ### The rows of one key -/

/-- What a row does to the aggregates of its group: the first row gives the group its key, and every
row changes all aggregates. -/
def aggregateStep (keys : List Nat) (aggregates : List Aggregate) (input : TupleType) (row : Row)
    (group : Option (Row × List Accumulator)) : Outcome (Row × List Accumulator) := do
  let (first, accumulators) :=
    group.getD (row.select keys, aggregates.map fun a => start a (a.kind? input))
  let accumulators ← (aggregates.zip accumulators).mapM fun (a, acc) =>
    acc.update (a.field.bind (row[·]?))
  return (first, accumulators)

/-- A row per key, keys in the order of their first appearance: the key, and behind it the
aggregates of its rows. -/
def aggregatedRows (keys : List Nat) (aggregates : List Aggregate) (input : TupleType)
    (rows : Rows) : Rows :=
  (firsts (rows.map (Row.select keys))).map fun key => key ++ aggregates.map fun a =>
    .int (ofInt (a.ofRows input (rows.filter (·.select keys = key))))

section

variable {keys : List Nat} {aggregates : List Aggregate} {input : TupleType} {rows : Rows}

/-- Grouping is one pass over all rows, if they have the fields of the keys. -/
theorem groupRows_eq (hrows : ∀ row ∈ rows, Forall₂ (fun p v => row[p]? = some v)
      keys (row.select keys)) :
    groupRows keys aggregates input rows = Groups.collect (fun row => Row.key (row.select keys))
      (aggregateStep keys aggregates input)
      (fun group => group.1 ++ group.2.map value) rows := by
  have hstep : ∀ row ∈ rows, ∀ groups, aggregateInto keys aggregates input groups row =
      groups.update (Row.key (row.select keys)) (aggregateStep keys aggregates input row) := by
    intro row hrow groups
    have hkey : (keys.mapM fun k => Row.field row k (.missingGroupKey k)) =
        .ok (row.select keys) := by
      simpa only [mapM_eq_ok_iff, Row.field, ofOption_eq_ok_iff] using hrows row hrow
    rw [aggregateInto, hkey]
    rfl
  rw [groupRows, foldlM_congr hstep]
  rfl

variable (htypes : ∀ a ∈ aggregates, ∃ t, a.type input = .ok t ∧ t.isFloat = false) {rest : Rows}
include htypes

/-- A row takes the aggregates of its group after some rows to those after one more. -/
theorem aggregateStep_after {group : Option (Row × List Accumulator)} {key row : Row}
    (hgroup : group.getD (row.select keys,
      aggregates.map fun a => start a (a.kind? input)) =
      (key, aggregates.map (after input · rows)))
    (hrows : ∀ row ∈ rows, input.admits row = true) (hrow : input.admits row = true) :
    aggregateStep keys aggregates input row group =
      .ok (key, aggregates.map (after input · (rows ++ [row]))) := by
  have hupdates : ((aggregates.zip (aggregates.map (after input · rows))).mapM
    fun (a, acc) =>
      acc.update (a.field.bind (row[·]?))) =
        .ok (aggregates.map (after input · (rows ++ [row]))) := by
    rw [mapM_eq_ok_iff, ← map_prod_left_eq_zip, forall₂_map_left_iff, forall₂_map_right_iff,
      forall₂_same]
    intro a ha
    obtain ⟨t, ht, hfloat⟩ := htypes a ha
    exact update_after ht hfloat hrows hrow
  simp only [aggregateStep, hgroup]
  rw [hupdates]
  rfl

/-- The rows of a group, added one after the other, take the aggregates to those of all rows. -/
theorem foldlM_aggregateStep (key : Row) (hrows : ∀ row ∈ rows ++ rest, input.admits row = true) :
    rest.foldlM (fun group row => aggregateStep keys aggregates input row (some group))
        (key, aggregates.map (after input · rows)) =
      .ok (key, aggregates.map (after input · (rows ++ rest))) := by
  induction rest generalizing rows with
  | nil => rw [append_nil]; rfl
  | cons row rest ih =>
    rw [foldlM_cons, aggregateStep_after htypes rfl
        (fun other hother => hrows other (mem_append_left _ hother)) (hrows row (by simp)),
      ok_bind, ih (by simpa using hrows), List.append_assoc, singleton_append]

/-- **The rows of one key come to their aggregates.** -/
theorem gather_aggregateStep {first : Row}
    (hrows : ∀ row ∈ first :: rest, input.admits row = true) :
    gather (aggregateStep keys aggregates input)
    (fun group => group.1 ++ group.2.map value)
        (first :: rest) =
      .ok [first.select keys ++ aggregates.map fun a => .int
        (ofInt (a.ofRows input (first :: rest)))] := by
  have hstart : (none : Option (Row × List Accumulator)).getD
      (first.select keys, aggregates.map fun a => start a (a.kind? input)) =
      (first.select keys, aggregates.map (after input · [])) := by
    simp only [getD_none, start_eq]
  have hvalues : ∀ a : Aggregate, (after input a ([first] ++ rest)).value =
      .int (ofInt (a.ofRows input (first :: rest))) :=
      fun a => value_after (by simp)
  rw [gather, aggregateStep_after htypes hstart (by simp) (hrows first mem_cons_self),
    ok_bind, nil_append, foldlM_aggregateStep htypes _ hrows, ok_bind,
    List.map_map, Function.comp_def]
  simp only [hvalues]
  rfl

end

/-! ### The order of the rows -/

section

variable {rows rows' : Rows}

/-- Aggregates of rows do not depend on their order. -/
theorem Aggregate.ofRows_perm (input : TupleType) (a : Aggregate) (h : rows.Perm rows') :
    a.ofRows input rows = a.ofRows input rows' := by
  have hintegers : (a.integers rows).Perm (a.integers rows') := by
    unfold integers
    cases a.field with
    | none => exact .refl _
    | some field => exact h.filterMap _
  unfold ofRows
  cases a.fn with
  | count => simp only [h.length_eq]
  | sum => simp only [hintegers.sum_eq]
  | min =>
    have hmin : (a.integers rows).min? = (a.integers rows').min? := by
      ext m
      simp only [min?_eq_some_iff, hintegers.mem_iff]
    simp only [hmin]
  | max =>
    have hmax : (a.integers rows).max? = (a.integers rows').max? := by
      ext m
      simp only [max?_eq_some_iff, hintegers.mem_iff]
    simp only [hmax]

/-- **Permuted rows have the same groups**, in another order. -/
theorem aggregatedRows_perm (keys : List Nat) (aggregates : List Aggregate) (input : TupleType)
    (h : rows.Perm rows') :
    (aggregatedRows keys aggregates input rows).Perm
      (aggregatedRows keys aggregates input rows') := by
  have hkeys : (firsts (rows.map (Row.select keys))).Perm
      (firsts (rows'.map (Row.select keys))) := by
    rw [perm_ext_iff_of_nodup (nodup_firsts _) (nodup_firsts _)]
    intro key
    rw [mem_firsts, mem_firsts, (h.map _).mem_iff]
  have hof : ∀ key a, ofRows input a (rows.filter (·.select keys = key)) =
      a.ofRows input (rows'.filter (·.select keys = key)) :=
    fun key a => a.ofRows_perm input (h.filter _)
  simp only [aggregatedRows, hof]
  exact hkeys.map _

/-- Aggregates of rows are integers of 64 bits, as long as there are not too many rows to count. -/
theorem Aggregate.toInt_ofRows (input : TupleType) (a : Aggregate) (h : rows.length < 2 ^ 63) :
    (ofInt (a.ofRows input rows)).toInt = a.ofRows input rows := by
  have hmember : ∀ n? : Option Int, (∀ n, n? = some n → n ∈ a.integers rows) →
      (ofInt (n?.getD 0)).toInt = n?.getD 0 := by
    intro n? hmem
    cases n? with
    | none => rfl
    | some n =>
      obtain ⟨hle, hlt⟩ := bounds_of_mem (hmem n rfl)
      exact toInt_ofInt_of_le hle hlt
  unfold ofRows
  cases a.fn with
  | count =>
    have hlt : (rows.length : Int) < 2 ^ 63 := by exact_mod_cast h
    exact toInt_ofInt_of_le (by dsimp only; omega) hlt
  | sum =>
    refine toInt_ofInt_bmod _ ?_
    cases hbits : (a.kind? input).bind Kind.bits? with
    | none => exact Nat.le_refl 64
    | some bits =>
      obtain ⟨k, -, hk⟩ := bind_eq_some_iff.1 hbits
      exact Kind.bits_le hk
  | min => exact hmember _ fun n hn => (min?_eq_some_iff.1 hn).1
  | max => exact hmember _ fun n hn => (max?_eq_some_iff.1 hn).1

end

/-! ### Grouping -/

section

variable {keys : List Nat} {aggregates : List Aggregate} {s : Stream} {output : TupleType}
  {bound : Option (List TupleType)}

/-- Grouping has keys of atomic types, and puts the types of its aggregates behind theirs. -/
theorem types_of_groupBy (htype : (Primitive.groupBy keys aggregates).outputType [s.type]
      bound = .ok output) :
    ∃ keyTypes, Forall₂ (fun p t => s.type.type? p = some t) keys keyTypes ∧
      (∀ t ∈ keyTypes, t.isAtomic = true ∧ t ∈ output.types) ∧
      ∀ a ∈ aggregates, ∃ t ∈ output.types, type s.type a = .ok t := by
  cases Primitive.outputType_eq_ok_iff.1 htype with
  | groupBy hkeys haggregates =>
    refine ⟨_, hkeys.imp fun _ _ => And.left, fun t ht => ?_, fun a ha => ?_⟩
    · obtain ⟨i, hi⟩ := mem_iff_getElem?.1 ht
      obtain ⟨_, -, -, hatomic⟩ := exists_of_forall₂ hkeys.flip hi
      exact ⟨hatomic, by simp [ht]⟩
    · obtain ⟨t, ht, hat⟩ := mem_mapM_of_mem (mapM_eq_ok_iff.2 haggregates) ha
      exact ⟨t, by simp [ht], hat⟩

/-- Conforming rows have the fields of their keys, and these are of their types. -/
theorem admits_groupKeys (hs : s.Conforms) {types : List FieldType}
    (htypes : Forall₂ (fun p t => s.type.type? p = some t) keys types) : ∀ row ∈ s.rows,
      Forall₂ (fun p v => row[p]? = some v) keys (row.select keys) ∧
      Forall₂ (fun t v => FieldType.admits t v = true) types (row.select keys) :=
  fun row hrow => forall₂_select htypes (admits_iff.1 (hs row hrow))

variable (htype : (Primitive.groupBy keys aggregates).outputType [s.type] bound = .ok output)
  (hs : s.Conforms) (hkinds : ∀ t ∈ output.types, t.isFloat = false)
include htype hs hkinds

/-- Groups have the aggregates of their rows. -/
theorem groupRows_eq_aggregatedRows :
    groupRows keys aggregates s.type s.rows =
      .ok (aggregatedRows keys aggregates s.type s.rows) := by
  obtain ⟨keyTypes, hkeyTypes, hatomic, haggregates⟩ := types_of_groupBy htype
  have hadmits := admits_groupKeys hs hkeyTypes
  have htexts : ∀ r ∈ s.rows, ∀ r' ∈ s.rows,
      Row.key (r.select keys) = Row.key (r'.select keys) ↔ r.select keys = r'.select keys :=
    fun r hr r' hr' => Row.key_eq_iff_of_not_float (fun t ht => (hatomic t ht).1) (hadmits r hr).2
      (fun t ht => hkinds t (hatomic t ht).2) (hadmits r' hr').2
  have htypes : ∀ a ∈ aggregates, ∃ t, a.type s.type = .ok t ∧ t.isFloat = false := by
    intro a ha
    obtain ⟨t, ht, hat⟩ := haggregates a ha
    exact ⟨t, hat, hkinds t ht⟩
  rw [groupRows_eq fun row hrow => (hadmits row hrow).1, Groups.collect_eq_ok_iff htexts,
    classes, aggregatedRows, forall₂_map_left_iff, forall₂_map_right_iff, forall₂_same]
  intro key hkey
  obtain ⟨first, rest, hclass, hall⟩ := filter_of_mem_firsts hkey
  rw [hclass, gather_aggregateStep htypes fun other hother => hs other (hall other hother).1,
    (hall first mem_cons_self).2]

/-- **Groups have the aggregates of their rows**, if neither their keys nor their aggregates are
floating.  There is one row per key, keys in the order of their first appearance, with the
aggregates of its rows behind the key; they are exact, as long as the rows can be counted.
Permuting the rows permutes the groups. -/
theorem run_groupBy (parameters : List Rows) :
    (Primitive.groupBy keys aggregates).run [s] parameters =
        .ok (aggregatedRows keys aggregates s.type s.rows) ∧
      (s.rows.length < 2 ^ 63 → ∀ key : Row, ∀ a ∈ aggregates,
        (ofInt (a.ofRows s.type (s.rows.filter (·.select keys = key)))).toInt =
          a.ofRows s.type (s.rows.filter (·.select keys = key))) ∧
      ∀ rows : Rows, rows.Perm s.rows →
        ∃ out, (Primitive.groupBy keys aggregates).run [⟨s.type, rows⟩] parameters = .ok out ∧
        out.Perm (aggregatedRows keys aggregates s.type s.rows) := by
  refine ⟨groupRows_eq_aggregatedRows htype hs hkinds, fun hlength key a _ => ?_,
    fun rows hperm => ?_⟩
  · exact a.toInt_ofRows s.type ((length_filter_le _ _).trans_lt hlength)
  · have hrows : Stream.Conforms ⟨s.type, rows⟩ := fun row hrow => hs row (hperm.mem_iff.1 hrow)
    exact ⟨_, groupRows_eq_aggregatedRows (s := ⟨s.type, rows⟩) htype hrows hkinds,
      aggregatedRows_perm keys aggregates s.type hperm⟩

end

/-- Weights in a field of 8 bits and whether they were confirmed, by the number of the box that they
are of. -/
def boxWeights : Stream where
  type := positional [.atomic .int8, .atomic .int64, .atomic .bool]
  rows := [[.int 100, .int 7, .bool true], [.int (-3), .int 8, .bool true],
    [.int 90, .int 7, .bool true], [.int 5, .int 7, .bool false], [.int 80, .int 7, .bool true]]

/-- The weights of every box are summed, the sum cut to 8 bits, and counted, and the least and the
greatest are found, for confirmed weights and others apart.  The same groups are made of the rows
from the last to the first. -/
theorem boxWeights_run :
    let grouping :=
  Primitive.groupBy [1, 2] [⟨.sum, some 0⟩, ⟨.count, none⟩, ⟨.min, some 0⟩, ⟨.max, some 0⟩]
    let groups : Rows := [[.int 7, .bool true, .int 14, .int 3, .int 80, .int 100],
      [.int 8, .bool true, .int (-3), .int 1, .int (-3), .int (-3)],
      [.int 7, .bool false, .int 5, .int 1, .int 5, .int 5]]
    (∃ output, grouping.outputType [boxWeights.type] none = .ok output ∧ ∀ t ∈ output.types,
      t.isFloat = false) ∧ boxWeights.Conforms ∧ grouping.run [boxWeights] [] = .ok groups ∧
      ∃ out, grouping.run [⟨boxWeights.type, boxWeights.rows.reverse⟩] [] = .ok out ∧
      out.Perm groups := by
  intro grouping groups
  have htype : grouping.outputType [boxWeights.type] none = .ok (positional
    [.atomic .int64, .atomic .bool, .atomic .int8, .atomic .int64, .atomic .int8, .atomic .int8]) :=
    rfl
  have hkinds : ∀ t ∈ (positional [.atomic .int64, .atomic .bool, .atomic .int8, .atomic .int64,
      .atomic .int8, .atomic .int8]).types, t.isFloat = false := by decide
  have hs : boxWeights.Conforms := by unfold Stream.Conforms; decide
  obtain ⟨hrun, -, hperm⟩ := run_groupBy htype hs hkinds []
  have hgroups : aggregatedRows [1, 2]
    [⟨.sum, some 0⟩, ⟨.count, none⟩, ⟨.min, some 0⟩, ⟨.max, some 0⟩]
      boxWeights.type boxWeights.rows = groups := by decide
  rw [hgroups] at hrun hperm
  exact ⟨⟨_, htype, hkinds⟩, hs, hrun, hperm _ (reverse_perm _)⟩

end Dataflow
