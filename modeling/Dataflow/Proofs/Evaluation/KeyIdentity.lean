/-
**Which rows meet.**

Groupings, folds by key and joins compare the texts of keys.  The keys are of atomic types, so their
texts tell their values, but for doubles that are not finite: the infinities and what is no number
are all written alike.  So two rows are put into one group, or are paired, exactly if their keys are
the same once they are settled.  The two infinities meet; the two zeros, which are equal numbers, do
not.

Main results:

* `run_eq_collect` — the operators that put rows into groups are passes over all rows;
* `rows_meet_iff` — **rows meet exactly if their settled keys are the same**;
* `infinities_meet_zeros_do_not` — the two infinities are counted as one, and the two zeros apart.
-/

import Dataflow.Proofs.Evaluation.Aggregation
import Dataflow.Proofs.Evaluation.Joins
import Dataflow.Proofs.Evaluation.KeyedFolds

namespace Dataflow

open Number

/-- The key that an operator puts rows into groups by. -/
def Primitive.groupKey? : Primitive → Option (Row → Row)
  | groupBy keys _ => some (Row.select keys)
  | reduceByKey _ => some (List.take 1)
  | _ => none

section

variable {p : Primitive} {keyOf : Row → Row} {s : Stream} {output : TupleType}
  {bound : Option (List TupleType)}

theorem admits_groupKey (hkey : p.groupKey? = some keyOf)
    (htype : p.outputType [s.type] bound = .ok output) (hs : s.Conforms) :
    ∃ types : List FieldType, (∀ t ∈ types, t.isAtomic = true) ∧
      ∀ row ∈ s.rows, List.Forall₂ (fun t v => FieldType.admits t v = true) types (keyOf row) := by
  cases p with
  | groupBy keys aggregates =>
    cases hkey
    obtain ⟨types, htypes, hatomic, -⟩ := types_of_groupBy htype
    exact ⟨types, fun t ht => (hatomic t ht).1,
      fun row hrow => (admits_groupKeys hs htypes row hrow).2⟩
  | reduceByKey function =>
    cases hkey
    obtain ⟨t, ht, hatomic, -⟩ := types_of_reduceByKey htype
    exact ⟨[t], by simpa using hatomic, fun row hrow => (admits_reduceKeys hs ht row hrow).2⟩
  | _ => cases hkey

/-- **The operators that put rows into groups are passes over all rows**, which tell groups apart by
the text of their key. -/
theorem run_eq_collect (hkey : p.groupKey? = some keyOf)
    (htype : p.outputType [s.type] bound = .ok output)
    (parameters : List Rows) :
    ∃ (α : Type) (step : Row → Option α → Outcome α) (finish : α → Row), ∀ rows : Rows,
      Stream.Conforms ⟨s.type, rows⟩ → p.run [⟨s.type, rows⟩] parameters =
        Groups.collect (fun row => Row.key (keyOf row)) step finish rows := by
  cases p with
  | groupBy keys aggregates =>
    cases hkey
    obtain ⟨types, htypes, -, -⟩ := types_of_groupBy htype
    refine ⟨_, aggregateStep keys aggregates s.type,
      fun group => group.1 ++ group.2.map Accumulator.value, fun rows hrows => ?_⟩
    exact groupRows_eq fun row hrow => (admits_groupKeys hrows htypes row hrow).1
  | reduceByKey function =>
    cases hkey
    obtain ⟨t, ht, -, -⟩ := types_of_reduceByKey htype
    refine ⟨_, reduceStep function (TupleType.positional (s.type.types.drop 1)),
      fun group => group.1 :: group.2, fun rows hrows => ?_⟩
    exact reduceByKeyRows_eq fun row hrow => (admits_reduceKeys hrows ht row hrow).1
  | _ => cases hkey

/-- An operator that puts rows into groups makes one row of all rows with the same settled key. -/
theorem run_eq_ok_iff_classes (hkey : p.groupKey? = some keyOf)
    (htype : p.outputType [s.type] bound = .ok output) (hs : s.Conforms) (parameters : List Rows)
    {out : Rows} : p.run [s] parameters = .ok out ↔
      List.Forall₂ (fun cls row => p.run [⟨s.type, cls⟩] parameters = .ok [row])
        (classes (fun row => (keyOf row).map Value.settle) s.rows) out := by
  obtain ⟨types, hatomic, hadmits⟩ := admits_groupKey hkey htype hs
  obtain ⟨α, step, finish, hrun⟩ := run_eq_collect hkey htype parameters
  rw [hrun s.rows hs, Groups.collect_eq_ok_iff_classes fun r hr r' hr' =>
    Row.key_eq_iff hatomic (hadmits r hr) (hadmits r' hr')]
  refine forall₂_congr_mem fun cls hcls row => ?_
  obtain ⟨first, rest, rfl, hall⟩ := exists_of_mem_classes hcls
  rw [hrun (first :: rest) fun other hother => hs other (hall other hother).1]

end

/-- **Rows meet exactly if their settled keys are the same.**  Keys of atomic types have the same
text exactly if their values are the same, or are both doubles that are not finite.  A join pairs
the rows whose keys are such, and a grouping or a fold by key makes one row of them, and of no
others. -/
theorem rows_meet_iff (p : Primitive) (bound : Option (List TupleType)) (output : TupleType)
    (parameters : List Rows) :
    (∀ (types : List FieldType) (xs ys : Row), (∀ t ∈ types, t.isAtomic = true) →
      List.Forall₂ (fun t v => FieldType.admits t v = true) types xs →
      List.Forall₂ (fun t v => FieldType.admits t v = true) types ys →
      (Row.key xs = Row.key ys ↔ xs.map Value.settle = ys.map Value.settle) ∧
        (Row.key xs = Row.key ys ↔
          List.Forall₂ (fun v w => v = w ∨ v.isFinite = false ∧ w.isFinite = false) xs ys)) ∧
    (∀ (keys : Nat) (left right : Stream), p = .join keys →
      p.outputType [left.type, right.type] bound = .ok output → left.Conforms → right.Conforms →
      p.run [left, right] parameters = .ok (left.rows.flatMap fun l =>
        (right.rows.filter fun r => (r.take keys).map Value.settle =
          (l.take keys).map Value.settle).map fun r => l ++ r.drop keys)) ∧
    ∀ (keyOf : Row → Row) (s : Stream) (out : Rows), p.groupKey? = some keyOf →
      p.outputType [s.type] bound = .ok output → s.Conforms →
      (p.run [s] parameters = .ok out ↔
        List.Forall₂ (fun cls row => p.run [⟨s.type, cls⟩] parameters = .ok [row])
          (classes (fun row => (keyOf row).map Value.settle) s.rows) out) := by
  refine ⟨?_, ?_, ?_⟩
  · intro types xs ys hatomic hxs hys
    have hkey := Row.key_eq_iff hatomic hxs hys
    exact ⟨hkey, hkey.trans map_settle_eq_iff⟩
  · rintro keys left right rfl htype hleft hright
    exact joinRows_settled htype hleft hright
  · intro keyOf s out hkey htype hs
    exact run_eq_ok_iff_classes hkey htype hs parameters

/-- Numbers among which are both zeros, both infinities and what is no number. -/
def numberColumn : Stream where
  type := TupleType.positional [.atomic .float64]
  rows := [[.float 0.0], [.float (infinity false)], [.float (-0.0)],
    [.float (infinity true)], [.float 0.0], [.float notANumber]]

/-- What is not finite has one text, is paired with each other and is counted together; the zeros
are not paired and are counted apart. -/
theorem numberColumn_meets :
    let chosen : Stream := ⟨numberColumn.type, [[.float 0.0], [.float (infinity true)]]⟩
    let counting := Primitive.groupBy [0] [⟨.count, none⟩]
    Row.key [.float notANumber] = Row.key [.float (infinity true)] ∧
      (∃ output, (Primitive.join 1).outputType [numberColumn.type, chosen.type] none = .ok output) ∧
      (∃ output, counting.outputType [numberColumn.type] none = .ok output) ∧
      numberColumn.Conforms ∧ chosen.Conforms ∧
      (Primitive.join 1).run [numberColumn, chosen] [] =
      .ok [[.float 0.0], [.float (infinity false)],
        [.float (infinity true)], [.float 0.0], [.float notANumber]] ∧
      counting.run [numberColumn] [] = .ok [
        [.float 0.0, .int 2], [.float (infinity false), .int 3],
        [.float (-0.0), .int 1]] := by
  intro chosen counting
  have hs : numberColumn.Conforms := by unfold Stream.Conforms; decide
  have hs' : chosen.Conforms := by unfold Stream.Conforms; decide
  have hjoin : (Primitive.join 1).outputType [numberColumn.type, chosen.type] none =
    .ok (TupleType.positional [.atomic .float64]) := rfl
  have hcount : counting.outputType [numberColumn.type] none =
    .ok (TupleType.positional [.atomic .float64, .atomic .int64]) := rfl
  have hclasses : classes (fun row => (Row.select [0] row).map Value.settle) numberColumn.rows = [
      [[.float 0.0], [.float 0.0]],
      [[.float (infinity false)], [.float (infinity true)],
      [.float notANumber]], [[.float (-0.0)]]] := by decide +kernel
  obtain ⟨htexts, hpairs, -⟩ := rows_meet_iff (.join 1) none _ []
  obtain ⟨-, -, hgroups⟩ := rows_meet_iff counting none _ []
  refine ⟨?_, ⟨_, hjoin⟩, ⟨_, hcount⟩, hs, hs', ?_, ?_⟩
  · exact (htexts [.atomic .float64] _ _ (by decide) (.cons (by decide) .nil)
      (.cons (by decide) .nil)).1.2 (by decide +kernel)
  · rw [hpairs 1 numberColumn chosen rfl hjoin hs hs']
    exact congrArg Except.ok (by decide +kernel)
  · rw [hgroups _ numberColumn _ rfl hcount hs, hclasses]
    refine .cons ?_ (.cons ?_ (.cons ?_ .nil)) <;>
      exact Outcome.toOption_eq_some_iff.1 (by decide +kernel)

/-- The two infinities are different numbers, but have one text as keys, and are counted as one.
The two zeros are equal numbers, but have different texts. -/
theorem infinities_meet_zeros_do_not :
    let column : Rows → Stream := fun rows => ⟨TupleType.positional [.atomic .float64], rows⟩
    let v := Value.float (infinity false)
    let w := Value.float (infinity true)
    let zeros := [[Value.float 0.0], [Value.float (-0.0)]]
    let counting := Primitive.groupBy [0] [⟨.count, none⟩]
    ((column [[v], [w]]).Conforms ∧ v ≠ w ∧ v.same w = false ∧ Row.key [v] = Row.key [w] ∧
        counting.run [column [[v], [w]]] [] = .ok [[v, .int 2]]) ∧
      (column zeros).Conforms ∧ Value.same (.float 0.0) (.float (-0.0)) = true ∧
        counting.run [column zeros] [] = .ok (zeros.map (· ++ [.int 1])) := by
  intro column v w zeros counting
  refine ⟨⟨?_, ?_, ?_, ?_, ?_⟩, ?_, ?_, ?_⟩
  · unfold Stream.Conforms; decide
  · decide +kernel
  · decide +kernel
  · decide +kernel
  · exact Outcome.toOption_eq_some_iff.1 (by decide +kernel)
  · unfold Stream.Conforms; decide
  · decide +kernel
  · exact Outcome.toOption_eq_some_iff.1 (by decide +kernel)

end Dataflow
