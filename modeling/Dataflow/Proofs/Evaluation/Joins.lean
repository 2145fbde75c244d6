/-
**Joins are nested loops.**

A join pairs rows by the texts of their keys.  It can go through all right rows for every left row,
or file the right rows under the texts of their keys first and look up the text of each left row:
the pairs are the same, in the same order, and so are the failures.  Both make the pairs that two
nested loops over the rows find when they compare the values of the keys, as far as values are told
by their texts; keys that are not floating are.

Main results:

* `hashJoin_eq` — **looking keys up and comparing them make the same pairs**;
* `joinRows_settled` — the pairs of a join are those with equal keys, once these are settled;
* `run_join` — **a join whose keys are not floating is a pair of nested loops**.
-/

import Dataflow.Proofs.Optimization.Commutation
import Dataflow.Proofs.Value.Identity

namespace Dataflow

open List Outcome TupleType

/-! ### Rows filed by key -/

/-- Rows filed under the texts of their keys, those of one key in their order. -/
def bucketsOf (keys : Nat) (rows : Rows) : Outcome (Groups Rows) :=
  rows.foldlM (fun buckets row => do
    buckets.update (← joinKey keys row) fun bucket => return bucket.getD [] ++ [row]) []

/-- The pairs of a join, found by looking up the key of each left row among the right rows. -/
def hashJoin (keys : Nat) (left right : Rows) : Outcome Rows := do
  let buckets ← bucketsOf keys right
  let pairs ← left.mapM fun row => do
    let key ← joinKey keys row
    return ((buckets.lookup key).getD []).map fun other => row ++ other.drop keys
  return pairs.flatten

theorem Groups.lookup_cons {α : Type} (groups : Groups α) (key k : String) (a : α) :
    ((key, a) :: groups).lookup k = if k = key then some a else groups.lookup k := by
  rw [List.lookup_cons]
  by_cases hk : k = key
  · simp [hk]
  · simp [beq_eq_false_iff_ne.2 hk, hk]

/-- A change that cannot fail gives a key its new value, and leaves all others alone. -/
theorem Groups.lookup_update {α : Type} (groups : Groups α) (key : String) (f : Option α → α) :
    ∃ changed, groups.update key (fun a => .ok (f a)) = .ok changed ∧
      ∀ k, changed.lookup k = if k =
      key then some (f (groups.lookup key)) else groups.lookup k := by
  induction groups with
  | nil => exact ⟨_, rfl, fun k => lookup_cons [] key k _⟩
  | cons e rest ih =>
    obtain ⟨k₀, a⟩ := e
    obtain ⟨changed, hchanged, hlookup⟩ := ih
    by_cases hkey : k₀ = key
    · refine ⟨(k₀, f (some a)) :: rest, by rw [update, if_pos hkey]; rfl, fun k => ?_⟩
      subst hkey
      by_cases hk : k = k₀ <;> simp [lookup_cons, hk]
    · refine ⟨(k₀, a) :: changed, by rw [update, if_neg hkey, hchanged]; rfl, fun k => ?_⟩
      by_cases hk : k = key
      · simp [lookup_cons, hlookup, hk, Ne.symm hkey]
      · simp [lookup_cons, hlookup, hk]

/-- Under a text are filed the rows whose keys have the text, in their order. -/
theorem lookup_bucketsOf {keys : Nat} {rows : Rows} {keyed : List (String × Row)}
    (h : (rows.mapM fun row => do return (← joinKey keys row, row)) = .ok keyed) :
    ∃ buckets, bucketsOf keys rows = .ok buckets ∧
      ∀ k, (buckets.lookup k).getD [] = (keyed.filter (·.1 == k)).map Prod.snd := by
  -- Along the rows, what has been filed so far stays in front.
  have hfile : ∀ filed : Groups Rows, ∃ buckets, rows.foldlM (fun buckets row => do
        buckets.update (← joinKey keys row) fun bucket => return bucket.getD [] ++ [row])
          filed = .ok buckets ∧
      ∀ k, (buckets.lookup k).getD [] =
        (filed.lookup k).getD [] ++ (keyed.filter (·.1 == k)).map Prod.snd := by
    rw [mapM_eq_ok_iff] at h
    induction h with
    | nil => exact fun filed => ⟨filed, rfl, by simp⟩
    | @cons row entry rows keyed hentry _ ih =>
      intro filed
      obtain ⟨key, hkey, hpair⟩ := bind_eq_ok_iff.1 hentry
      cases hpair
      obtain ⟨changed, hchanged, hlookup⟩ := Groups.lookup_update filed key fun bucket =>
        bucket.getD [] ++ [row]
      obtain ⟨buckets, hbuckets, hall⟩ := ih changed
      refine ⟨buckets, ?_, fun k => ?_⟩
      · rw [foldlM_cons, hkey, ok_bind]
        exact (congrArg (· >>= _) hchanged).trans hbuckets
      · rw [hall, hlookup, filter_cons]
        by_cases hk : k = key
        · simp [hk]
        · simp [hk, Ne.symm hk]
  obtain ⟨buckets, hbuckets, hall⟩ := hfile []
  exact ⟨buckets, hbuckets, by simpa using hall⟩

theorem bucketsOf_eq_error {keys : Nat} {rows : Rows} {failure : Failure}
    (h : (rows.mapM fun row => do return (← joinKey keys row, row)) = .error failure) :
    bucketsOf keys rows = .error failure := by
  rw [bucketsOf]
  generalize ([] : Groups Rows) = filed
  induction rows generalizing filed with
  | nil => cases h
  | cons row rows ih =>
    rw [mapM_cons] at h
    rw [foldlM_cons]
    cases hkey : joinKey keys row with
    | error _ =>
      rw [hkey] at h
      cases h
      rfl
    | ok key =>
      obtain ⟨changed, hchanged, -⟩ := Groups.lookup_update filed key fun bucket =>
        bucket.getD [] ++ [row]
      cases hrows : rows.mapM fun row => do return (← joinKey keys row, row) with
      | ok keyed =>
        rw [hkey, hrows] at h
        cases h
      | error _ =>
        rw [hkey, hrows] at h
        cases h
        exact (congrArg (· >>= _) hchanged).trans (ih hrows changed)

/-- **Looking keys up and comparing them make the same pairs**, or fail in the same way. -/
theorem hashJoin_eq (keys : Nat) (left right : Rows) :
    hashJoin keys left right = joinRows keys left right := by
  rw [hashJoin, joinRows]
  cases hkeyed : right.mapM fun row => do return (← joinKey keys row, row) with
  | error failure => rw [bucketsOf_eq_error hkeyed]; rfl
  | ok keyed =>
    obtain ⟨buckets, hbuckets, hlookup⟩ := lookup_bucketsOf hkeyed
    rw [hbuckets, ok_bind, ok_bind]
    simp only [hlookup, List.map_map, Function.comp_def]

/-! ### Keys of conforming rows -/

section

variable {keys : Nat} {left right : Stream} {output : TupleType} {bound : Option (List TupleType)}
  (htype : (Primitive.join keys).outputType [left.type, right.type] bound = .ok output)
  (hleft : left.Conforms) (hright : right.Conforms)
include htype hleft hright

theorem admits_joinKeys : ∃ types : List FieldType, types = left.type.types.take keys ∧
    (∀ t ∈ types, t.isAtomic = true) ∧ ∀ row, row ∈ left.rows ∨ row ∈ right.rows →
      Forall₂ (fun t v => FieldType.admits t v = true) types (row.take keys) := by
  obtain ⟨hsame, hatomic⟩ := keyTypes_of_pairKeys rfl htype
  refine ⟨_, rfl, hatomic, ?_⟩
  rintro row (hrow | hrow)
  · exact forall₂_take keys (admits_iff.1 (hleft row hrow))
  · exact hsame ▸ forall₂_take keys (admits_iff.1 (hright row hrow))

/-- The pairs of a join are those whose keys are equal, once they are settled. -/
theorem joinRows_settled : joinRows keys left.rows right.rows = .ok (left.rows.flatMap fun l =>
    (right.rows.filter fun r => (r.take keys).map Value.settle = (l.take keys).map Value.settle).map
      fun r => l ++ r.drop keys) := by
  obtain ⟨hkeys, hkeys', -⟩ := types_of_pairKeys rfl htype
  obtain ⟨types, -, hatomic, hadmits⟩ := admits_joinKeys htype hleft hright
  rw [joinRows_eq, pairRows, Except.ok.injEq]
  · refine flatMap_congr fun l hl => congrArg (List.map _) (filter_congr fun r hr => ?_)
    have hkey := Row.key_eq_iff hatomic (hadmits r (.inr hr)) (hadmits l (.inl hl))
    rw [Primitive.matches, Bool.eq_iff_iff, beq_iff_eq, hkey, decide_eq_true_eq]
  · exact fun row hrow => length_eq_of_admits (hleft row hrow) ▸ hkeys
  · exact fun row hrow => length_eq_of_admits (hright row hrow) ▸ hkeys'

/-- **A join whose keys are not floating is a pair of nested loops**, whether it compares keys or
looks them up: for each left row in order, and each right row in order with the values of its key,
there is the left row followed by the other fields of the right row. -/
theorem run_join (parameters : List Rows)
    (hkinds : ∀ t ∈ left.type.types.take keys, t.isFloat = false) :
    let pairs := left.rows.flatMap fun l =>
      (right.rows.filter fun r => r.take keys = l.take keys).map fun r => l ++ r.drop keys
    (Primitive.join keys).run [left, right] parameters = .ok pairs ∧
      hashJoin keys left.rows right.rows = .ok pairs := by
  intro pairs
  have hpairs : joinRows keys left.rows right.rows = .ok pairs := by
    obtain ⟨types, rfl, hatomic, hadmits⟩ := admits_joinKeys htype hleft hright
    rw [joinRows_settled htype hleft hright, Except.ok.injEq]
    refine flatMap_congr fun l hl => congrArg (List.map _) (filter_congr fun r hr => ?_)
    rw [map_settle_of_not_float hatomic (hadmits r (.inr hr)) hkinds,
      map_settle_of_not_float hatomic (hadmits l (.inl hl)) hkinds]
  exact ⟨hpairs, (hashJoin_eq _ _ _).trans hpairs⟩

end

/-- Shelves with a number and the number of a box, which may stand on several of them. -/
def shelvedBoxes : Stream where
  type := positional [.atomic .int64, .atomic .int8]
  rows := [[.int 7, .int 1], [.int 8, .int 2], [.int 7, .int 3]]

/-- Shelves with a number and whether they are full, as told at different times. -/
def shelfStates : Stream where
  type := positional [.atomic .int64, .atomic .bool]
  rows := [[.int 8, .bool true], [.int 7, .bool false], [.int 9, .bool true], [.int 7, .bool true]]

/-- Every box is paired with all states of its shelf. -/
theorem shelvedBoxes_run :
    (∃ output, (Primitive.join 1).outputType [shelvedBoxes.type, shelfStates.type] none =
      .ok output) ∧ shelvedBoxes.Conforms ∧ shelfStates.Conforms ∧
    (∀ t ∈ shelvedBoxes.type.types.take 1, t.isFloat = false) ∧ ∃ pairs : Rows, pairs = [
      [.int 7, .int 1, .bool false], [.int 7, .int 1, .bool true], [.int 8, .int 2, .bool true],
      [.int 7, .int 3, .bool false], [.int 7, .int 3, .bool true]] ∧
    (Primitive.join 1).run [shelvedBoxes, shelfStates] [] = .ok pairs ∧
    hashJoin 1 shelvedBoxes.rows shelfStates.rows = .ok pairs := by
  have htype : (Primitive.join 1).outputType [shelvedBoxes.type, shelfStates.type] none =
    .ok (positional [.atomic .int64, .atomic .int8, .atomic .bool]) := rfl
  have hleft : shelvedBoxes.Conforms := by unfold Stream.Conforms; decide
  have hright : shelfStates.Conforms := by unfold Stream.Conforms; decide
  have hkinds : ∀ t ∈ shelvedBoxes.type.types.take 1, t.isFloat = false := by decide
  exact ⟨⟨_, htype⟩, hleft, hright, hkinds, _, rfl, run_join htype hleft hright [] hkinds⟩

end Dataflow
