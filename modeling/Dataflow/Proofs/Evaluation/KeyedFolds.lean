/-
**Folds by key are folds of each key.**

A fold by key goes through the rows once and combines each row with what the rows of its key have
come to so far. The rows of one key are combined in their order, and the rows of other keys that
stand between them make no difference.  So there is one row per key: the key, and behind it what the
plain fold makes of the values of the rows with that key.  The fold by key fails exactly if one of
these folds does.

Main results:

* `reduceByKeyRows_eq` — a fold by key is one pass over all rows;
* `gather_reduceStep` — the rows of one key are folded as the plain fold folds them;
* `run_reduceByKey` — **a fold by key is a fold of each key**.
-/

import Dataflow.Proofs.Evaluation.Grouping
import Dataflow.Proofs.Optimization.Rows
import Dataflow.Proofs.Value.Identity

namespace Dataflow

open List Outcome TupleType

/-- What a row does to the group of its key: the first row gives the group its key and its values,
and the values of the others are combined with those before. -/
def reduceStep (function : Expr) (type : TupleType) :
    Row → Option (Value × Row) → Outcome (Value × Row)
  | [], _ => throw (.execution .noKeyField)
  | key :: values, none => return (key, values)
  | _ :: values, some (key, acc) => do return (key, ← combine function type acc values)

variable {function : Expr} {type : TupleType}

/-- A fold by key is one pass over all rows. -/
theorem reduceByKeyRows_eq {rows : Rows} (hrows : ∀ row ∈ rows, row ≠ []) :
    reduceByKeyRows function type rows = Groups.collect (fun row => Row.key (row.take 1))
      (reduceStep function (positional (type.types.drop 1)))
    (fun group => group.1 :: group.2) rows := by
  have hstep : ∀ row ∈ rows, ∀ groups,
    reduceInto function (positional (type.types.drop 1)) groups row =
        groups.update (Row.key (row.take 1))
        (reduceStep function (positional (type.types.drop 1)) row) := by
    intro row hrow groups
    obtain ⟨key, values, rfl⟩ := exists_cons_of_ne_nil (hrows row hrow)
    refine congrArg (Groups.update _ · groups) (funext fun group => ?_)
    cases group <;> rfl
  rw [reduceByKeyRows, foldlM_congr hstep]
  rfl

/-- The rows of one key are folded as the plain fold folds their values, failures included. -/
theorem gather_reduceStep {key : Value} {values : Row} {rest : Rows}
    (hrest : ∀ row ∈ rest, row ≠ []) :
    gather (reduceStep function type) (fun group => group.1 :: group.2) ((key :: values) :: rest) =
      List.map (key :: ·)
      <$> reduceRows function type (((key :: values) :: rest).map (List.drop 1)) := by
  -- The group keeps the key of its first row, so only its values are folded.
  have hfold : ∀ acc,
    rest.foldlM (fun group row => reduceStep function type row (some group)) (key, acc) =
      Prod.mk key <$> (rest.map (List.drop 1)).foldlM (combine function type) acc := by
    induction rest with
    | nil => exact fun _ => rfl
    | cons row rest ih =>
      intro acc
      rw [forall_mem_cons] at hrest
      obtain ⟨_, next, rfl⟩ := exists_cons_of_ne_nil hrest.1
      rw [foldlM_cons, map_cons, foldlM_cons, reduceStep, drop_succ_cons, drop_zero]
      cases combine function type acc next with
      | error failure => rfl
      | ok combined => exact ih hrest.2 combined
  rw [gather, reduceStep, pure_eq_ok, ok_bind, hfold, map_cons, reduceRows, drop_succ_cons,
    drop_zero]
  cases (rest.map (List.drop 1)).foldlM (combine function type) values <;> rfl

/-- The rows with a key are folded to the key and what the plain fold makes of their values. -/
theorem gather_of_key {rows : Rows} (hrows : ∀ row ∈ rows, row ≠ []) {key : Row}
    (hkey : key ∈ firsts (rows.map (List.take 1))) :
    gather (reduceStep function type) (fun group => group.1 :: group.2)
    (rows.filter (·.take 1 = key)) =
      List.map (key ++ ·)
      <$> reduceRows function type ((rows.filter (·.take 1 = key)).map (List.drop 1)) := by
  obtain ⟨first, rest, hclass, hall⟩ := filter_of_mem_firsts hkey
  obtain ⟨hfirst, hsame⟩ := hall first mem_cons_self
  obtain ⟨k, values, rfl⟩ := exists_cons_of_ne_nil (hrows first hfirst)
  rw [hclass, ← hsame]
  exact gather_reduceStep fun other hother => hrows other (hall other (mem_cons_of_mem _ hother)).1

section

variable {s : Stream} {output : TupleType} {bound : Option (List TupleType)}

theorem types_of_reduceByKey (htype : (Primitive.reduceByKey function).outputType [s.type]
      bound = .ok output) :
    ∃ t, s.type.type? 0 = some t ∧ t.isAtomic = true ∧
      (Primitive.reduce function).outputType [positional (s.type.types.drop 1)] bound =
        .ok (positional (s.type.types.drop 1)) := by
  cases Primitive.outputType_eq_ok_iff.1 htype with
  | reduceByKey hkey atomic infers folds =>
    exact ⟨_, hkey, atomic, Primitive.outputType_eq_ok_iff.2 (.reduce infers folds)⟩

theorem admits_reduceKeys (hs : s.Conforms) {t : FieldType} (ht : s.type.type? 0 = some t) :
    ∀ row ∈ s.rows, row ≠ [] ∧
      Forall₂ (fun t v => FieldType.admits t v = true) [t] (row.take 1) := by
  intro row hrow
  obtain ⟨v, hv, hadmits⟩ := get_of_forall₂ (admits_iff.1 (hs row hrow)) ht
  cases row with
  | nil => cases hv
  | cons w values =>
    cases hv
    exact ⟨nofun, .cons hadmits .nil⟩

/-- **A fold by key is a fold of each key**, if the key is not floating.  It fails exactly if the
fold of the values of some key does.  Otherwise it makes one row per key, keys in the order of their
first appearance: the key, and behind it what the fold makes of the values of its rows, in their
order. -/
theorem run_reduceByKey (parameters : List Rows)
    (htype : (Primitive.reduceByKey function).outputType [s.type] bound = .ok output)
    (hs : s.Conforms) (hkind : ∀ t, s.type.type? 0 = some t → t.isFloat = false) :
    let values := positional (s.type.types.drop 1)
    let keys := firsts (s.rows.map (List.take 1))
    let folded (key : Row) : Outcome Rows := (Primitive.reduce function).run
      [⟨values, (s.rows.filter (·.take 1 = key)).map (List.drop 1)⟩] parameters
    (Primitive.reduce function).outputType [values] bound = .ok values ∧
      ((∃ failure, (Primitive.reduceByKey function).run [s] parameters = .error failure) ↔
        ∃ key ∈ keys, ∃ failure, folded key = .error failure) ∧
      ∀ out, (Primitive.reduceByKey function).run [s] parameters = .ok out ↔
        Forall₂ (fun key row => ∃ last, folded key = .ok [last] ∧ row = key ++ last) keys out := by
  intro values keys folded
  obtain ⟨t, ht, hatomic, hreduce⟩ := types_of_reduceByKey htype
  have hadmits := admits_reduceKeys hs ht
  have hrows : ∀ row ∈ s.rows, row ≠ [] := fun row hrow => (hadmits row hrow).1
  have hkeys : ∀ r ∈ s.rows, ∀ r' ∈ s.rows, Row.key (r.take 1) = Row.key (r'.take 1) ↔
    r.take 1 = r'.take 1 :=
    fun r hr r' hr' => Row.key_eq_iff_of_not_float (by simpa using hatomic) (hadmits r hr).2
      (by simpa using hkind t ht) (hadmits r' hr').2
  have hrun : (Primitive.reduceByKey function).run [s] parameters = Groups.collect
      (fun row => Row.key (row.take 1)) (reduceStep function values)
      (fun group => group.1 :: group.2) s.rows :=
    reduceByKeyRows_eq hrows
  have hgather : ∀ key ∈ keys, gather (reduceStep function values) (fun group => group.1 :: group.2)
      (s.rows.filter (·.take 1 = key)) = List.map (key ++ ·) <$> folded key :=
    fun key hkey => gather_of_key hrows hkey
  refine ⟨hreduce, ?_, fun out => ?_⟩
  · rw [hrun, Groups.collect_eq_error_iff hkeys, classes]
    simp only [List.mem_map, exists_exists_and_eq_and]
    refine exists_congr fun key => and_congr_right fun hkey => ?_
    rw [hgather key hkey]
    cases folded key <;> simp [Functor.map, Except.map]
  · rw [hrun, Groups.collect_eq_ok_iff hkeys, classes, forall₂_map_left_iff]
    refine forall₂_congr_mem fun key hkey row => ?_
    rw [hgather key hkey, Outcome.map_eq_ok_iff]
    simp only [map_eq_singleton_iff]
    constructor
    · rintro ⟨_, hfolded, last, rfl, rfl⟩
      exact ⟨last, hfolded, rfl⟩
    · rintro ⟨last, hfolded, rfl⟩
      exact ⟨_, hfolded, last, rfl, rfl⟩

end

/-- Weights in a field of 8 bits, by the number of the scale that they were put on. -/
def weighings : Stream where
  type := positional [.atomic .int64, .atomic .int8]
  rows := [[.int 1, .int 100], [.int 2, .int 5], [.int 1, .int 100],
    [.int 2, .int 7], [.int 1, .int 100]]

/-- The sum of two weights. -/
def addWeights : Expr := .binary .add (.field 0 0) (.field 1 0)

/-- The weights of every scale are summed alone, and each sum is cut to 8 bits. -/
theorem weighings_run :
    (∃ output, (Primitive.reduceByKey addWeights).outputType [weighings.type] none = .ok output) ∧
    weighings.Conforms ∧ (∀ t, weighings.type.type? 0 = some t → t.isFloat = false) ∧
    (Primitive.reduceByKey addWeights).run [weighings] [] =
      .ok [[.int 1, .int 44], [.int 2, .int 12]] := by
  have htype : (Primitive.reduceByKey addWeights).outputType [weighings.type] none =
      .ok weighings.type := by
    cbv
  have hs : weighings.Conforms := by unfold Stream.Conforms; decide
  have hkind : ∀ t, weighings.type.type? 0 = some t → t.isFloat = false := by
    rintro _ ⟨⟩
    rfl
  refine ⟨⟨_, htype⟩, hs, hkind, ((run_reduceByKey [] htype hs hkind).2.2 _).2 ?_⟩
  exact .cons ⟨[.int 44], by cbv, rfl⟩ (.cons ⟨[.int 12], by cbv, rfl⟩ .nil)

end Dataflow
