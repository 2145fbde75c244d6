/-
**When properties are true of rows.**

A property of a field is about its values along the rows: equal ones stand together, they go up or
down, or no two of them are equal.  Each of these passes to some of the values in their order, so
filters keep it, and so do operators that pass the field on.  A range goes up or down.  The
positions in an array go up, but they start again with every array that is scanned.  Groups differ
in the texts of all their keys taken together, so the values of a key differ if there is no other
key, and no zero of both signs.

Main definitions:

* `Property.HoldsOf` — the values of which a property is true;
* `fieldValues` — the values of a field along the rows;
* `writtenAlike` — values without zeros of both signs;
* `Operator.vouches` — whether an operator can be taken at its word about the properties that it
  gives.

Main results:

* `Property.HoldsOf.sublist` — a property passes to some of the values;
* `holdsOf_of_range`, `holdsOf_positions`, `distinct_of_keyed` — properties of ranges, of positions
  in arrays, and of keys;
* `sublist_of_keepsProperties` — **operators that keep properties pass values on in their order**;
* `holdsOf_of_givesProperties` — **a property that an operator gives is true**, if the operator can
  be taken at its word.
-/

import Dataflow.Proofs.Columns
import Dataflow.Proofs.Evaluation.Agreement
import Dataflow.Proofs.Evaluation.Safety
import Dataflow.Proofs.Value.Key
import Mathlib.Data.List.Pairwise

namespace Dataflow

open List Option Outcome Operator Int64 FieldType

variable {operands : List Stream}

/-! ### Properties of values -/

/-- The values of a field along the rows. -/
def fieldValues (rows : Rows) (position : Nat) : List Value := rows.filterMap (·[position]?)

/-- Whether a property is true of the values of a field. -/
def Property.HoldsOf : Property → List Value → Prop
  | grouped, values => ∀ u v w, [u, v, w].Sublist values → u.same w = true → u.same v = true
  | sorted, values =>
    values.Pairwise (fun v w => v.compare w = .ok .lt ∨ v.compare w = .ok .eq) ∨
      values.Pairwise (fun v w => v.compare w = .ok .gt ∨ v.compare w = .ok .eq)
  | unique, values => values.Pairwise fun v w => v.same w = false

namespace Property

variable {p : Property} {values some : List Value} {xs : List Int64}

theorem HoldsOf.sublist (h : p.HoldsOf values) (hsome : some.Sublist values) : p.HoldsOf some := by
  cases p with
  | grouped => exact fun u v w huvw => h u v w (huvw.trans hsome)
  | sorted => exact h.imp (·.sublist hsome) (·.sublist hsome)
  | unique => exact h.sublist hsome

theorem holdsOf_of_distinct (h : values.Pairwise fun v w => v.same w = false) (hp : p ≠ sorted) :
    p.HoldsOf values := by
  cases p with
  | grouped =>
    intro u v w huvw hsame
    have hdistinct := h.sublist huvw
    simp [hsame] at hdistinct
  | sorted => exact absurd rfl hp
  | unique => exact h

theorem sorted_of_le (h : xs.Pairwise (· ≤ ·)) : sorted.HoldsOf (xs.map .int) := by
  refine .inl ?_
  rw [pairwise_map]
  refine h.imp fun {a b} hab => ?_
  simp only [Value.compare, pure_eq_ok, Except.ok.injEq]
  rcases Int.lt_or_eq_of_le (le_iff_toInt_le.1 hab) with hlt | heq
  · exact .inl (compare_lt_iff_lt.2 hlt)
  · exact .inr (compare_eq_iff_eq.2 heq)

theorem holdsOf_of_strict (h : xs.Pairwise (· < ·) ∨ xs.Pairwise (· > ·)) :
    p.HoldsOf (xs.map .int) := by
  by_cases hp : p = sorted
  · subst hp
    rcases h with hup | hdown
    · exact sorted_of_le (hup.imp Int64.le_of_lt)
    · refine .inr ?_
      rw [pairwise_map]
      refine hdown.imp fun {a b} hab => .inl ?_
      simp only [Value.compare, pure_eq_ok, Except.ok.injEq]
      exact compare_gt_iff_gt.2 (lt_iff_toInt_lt.1 hab)
  · refine holdsOf_of_distinct ?_ hp
    rw [pairwise_map]
    rcases h with hup | hdown
    · exact hup.imp fun {a b} hab => by simp [Value.same, Int64.ne_of_lt hab]
    · exact hdown.imp fun {a b} hab => by simp [Value.same, (Int64.ne_of_lt hab).symm]

end Property

/-! ### Stored rows -/

variable {row : Row} {i position index n : Nat} {type result : FieldType} {v : Value}
  {rows : Rows} {sizes : List Nat} {k kind : Kind} {keys positions : List Nat} {function : Expr}
  {aggregates : List Aggregate} {t input : TupleType}

theorem TupleType.getElem?_store (ht : t.type? i = some type) (hv : row[i]? = some v)
    (hheld : type.Holds v) : (t.store row)[i]? = some v := by
  rw [store]
  split
  · obtain ⟨f, hf, rfl⟩ := map_eq_some_iff.1 ht
    rw [getElem?_storeAll, hf, hv, bind_some, map_some, hheld.stored]
  · exact hv

theorem fieldValues_store (ht : t.type? i = some type)
    (hrows : ∀ row ∈ rows, ∀ v, row[i]? = some v → type.Holds v) :
    fieldValues (rows.map t.store) i = fieldValues rows i := by
  rw [fieldValues, filterMap_map, fieldValues]
  refine filterMap_congr fun row hrow => ?_
  rw [Function.comp_apply]
  cases hv : row[i]? with
  | some v => exact TupleType.getElem?_store ht hv (hrows row hrow v hv)
  | none => rwa [List.getElem?_eq_none_iff, TupleType.length_store, ← List.getElem?_eq_none_iff]

theorem Stream.Held.holds {s : Stream} (hs : s.Held) (ht : s.type.type? i = some type)
    (hrow : row ∈ s.rows) (hv : row[i]? = some v) : type.Holds v := by
  obtain ⟨w, hw, hheld⟩ := (hs row hrow).get ht
  obtain rfl := mem_unique hv hw
  exact hheld

/-! ### Ranges -/

theorem FieldType.holds_int64 (i : Int64) : (atomic .int64).Holds (.int i) :=
  holds_store (t := .atomic .int64) (v := .int i) rfl

theorem type_of_range {r : Range} {inputs : List TupleType}
    {bound : Option (List TupleType)} {t : TupleType}
    (h : (Primitive.range r).outputType inputs bound = .ok t) : t = .scalar .int64 := by
  cases Primitive.outputType_eq_ok_iff.1 h
  rfl

/-- **The field of a range has every property.** -/
theorem holdsOf_of_range {r : Range} (hstep : r.step ≠ 0) (p : Property)
    {c : EvaluationContext} {out : Stream} (h : evaluation.primitive c (.range r) operands out) :
    (∃ k, out.type.type? 0 = some (.atomic k)) ∧ p.HoldsOf (fieldValues out.rows 0) := by
  obtain ⟨htype, raw, hraw, hrows⟩ := h
  cases hraw
  have hfirst : out.type.type? 0 = some (.atomic .int64) := by
    rw [type_of_range htype]
    rfl
  refine ⟨⟨_, hfirst⟩, ?_⟩
  rw [hrows, fieldValues_store hfirst, fieldValues, filterMap_map]
  · have hvalues : r.values.filterMap ((fun row : Row => row[0]?) ∘ fun i => [Value.int i]) =
        r.values.map .int := by
      rw [← filterMap_eq_map]
      rfl
    rw [hvalues]
    exact Property.holdsOf_of_strict (Range.strict_values hstep)
  · intro row hrow v hv
    obtain ⟨i, -, rfl⟩ := List.mem_map.1 hrow
    cases hv
    exact holds_int64 i

/-! ### Positions in arrays -/

/-- The numbers of items of the arrays that are scanned. -/
def arraySizes (rows : Rows) : List Nat :=
  (rows.filterMap (·.head?.bind Value.array?)).map List.length

theorem fieldValues_scanRow {out : Rows} (h : scanRow true row = .ok out) :
    ∃ items, row.head?.bind Value.array? = some items ∧
      fieldValues out 0 = (List.range items.length).map fun i => .int (ofNat i) := by
  simp only [scanRow, bind_eq_ok_iff, ofOption_eq_ok_iff] at h
  obtain ⟨items, hitems, h⟩ := h
  cases h
  refine ⟨items, hitems, ?_⟩
  rw [fieldValues, mapIdx_eq_zipIdx_map, filterMap_map, range_eq_range', ← zipIdx_map_snd,
    List.map_map, ← filterMap_eq_map]
  rfl

/-- The positions of the items of all arrays, one array after the other. -/
theorem fieldValues_scan {parts : List Rows} (h : rows.mapM (scanRow true) = .ok parts) :
    fieldValues parts.flatten 0 =
      ((arraySizes rows).flatMap List.range).map fun i => .int (ofNat i) := by
  rw [mapM_eq_ok_iff] at h
  induction h with
  | nil => rfl
  | @cons row part rows parts hpart _ ih =>
    obtain ⟨items, hitems, hvalues⟩ := fieldValues_scanRow hpart
    have hsizes : arraySizes (row :: rows) = items.length :: arraySizes rows := by
      rw [arraySizes, filterMap_cons, hitems, map_cons, arraySizes]
    rw [hsizes, flatMap_cons, map_append, ← hvalues, ← ih, flatten_cons, fieldValues,
      filterMap_append]
    rfl

/-- Arrays without items have no positions. -/
theorem flatMap_range_filter (sizes : List Nat) :
    (sizes.filter (0 < ·)).flatMap List.range = sizes.flatMap List.range := by
  induction sizes with
  | nil => rfl
  | cons n sizes ih =>
    rw [filter_cons, flatMap_cons, ← ih]
    split
    · rfl
    · next hn =>
      obtain rfl : n = 0 := by simpa using hn
      rfl

/-- Positions do not go down, if no array but the last has more than one item. -/
theorem pairwise_le_flatMap_range (h : ∀ n ∈ sizes.dropLast, n = 1) :
    (sizes.flatMap List.range).Pairwise (· ≤ ·) := by
  induction sizes with
  | nil => exact .nil
  | cons n sizes ih =>
    rw [flatMap_cons]
    cases sizes with
    | nil => simpa using pairwise_le_range
    | cons m sizes =>
      rw [dropLast_cons_cons] at h
      obtain rfl := h n mem_cons_self
      refine pairwise_cons.2 ⟨fun k _ => Nat.zero_le k, ih fun k hk => ?_⟩
      exact h k (mem_cons_of_mem _ hk)

theorem mem_flatMap_range {bound k : Nat} (hbound : ∀ n ∈ sizes, n ≤ bound)
    (hk : k ∈ sizes.flatMap List.range) : k < bound := by
  obtain ⟨n, hn, hkn⟩ := mem_flatMap.1 hk
  exact Nat.lt_of_lt_of_le (mem_range.1 hkn) (hbound n hn)

/-- **The positions of the items of arrays have the properties that can be expected**: they are
different if at most one array has items, and they do not go down if no array but the last has more
than one. -/
theorem holdsOf_positions (hbound : ∀ n ∈ sizes, n ≤ 2 ^ 63) {p : Property}
    (h : if p = .sorted then ∀ n ∈ (sizes.filter (0 < ·)).dropLast,
      n = 1 else (sizes.filter (0 < ·)).length ≤ 1) :
    p.HoldsOf ((sizes.flatMap List.range).map fun i => .int (ofNat i)) := by
  have hmap : (sizes.flatMap List.range).map (fun i => Value.int (ofNat i)) =
      ((sizes.flatMap List.range).map ofNat).map .int := by
    rw [List.map_map]
    rfl
  have hsmall : ∀ k ∈ sizes.flatMap List.range, (ofNat k).toInt = k := fun k hk =>
    toInt_ofNat_of_lt (mem_flatMap_range hbound hk)
  rw [hmap]
  split at h
  · next hp =>
    subst hp
    refine Property.sorted_of_le (pairwise_map.2 ?_)
    have hle := pairwise_le_flatMap_range h
    rw [flatMap_range_filter] at hle
    refine hle.imp_of_mem fun {a b} ha hb hab => ?_
    rw [le_iff_toInt_le, hsmall a ha, hsmall b hb]
    omega
  · refine Property.holdsOf_of_strict (.inl (pairwise_map.2 ?_))
    have hlt : (sizes.flatMap List.range).Pairwise (· < ·) := by
      rw [← flatMap_range_filter]
      generalize sizes.filter (0 < ·) = filled at h
      rcases filled with _ | ⟨n, _ | ⟨m, filled⟩⟩
      · exact .nil
      · simpa using pairwise_lt_range
      · simp at h
    refine hlt.imp_of_mem fun {a b} ha hb hab => ?_
    rw [lt_iff_toInt_lt, hsmall a ha, hsmall b hb]
    omega

/-! ### Keys of groups -/

/-- The doubles among some values. -/
def doubles (values : List Value) : List Float := values.filterMap fun
    | .float x => some x
    | _ => none

/-- Whether doubles that are equal as numbers are written alike, which the two zeros are not. -/
def writtenAlike (values : List Value) : Bool :=
  (doubles values).all fun x => (doubles values).all fun y =>
    x != y || (Value.float x).text == (Value.float y).text

/-- Values of a kind that are equal are written alike, if doubles are. -/
theorem Kind.text_eq_of_same {values : List Value} (halike : writtenAlike values = true)
    {v w : Value} (hv : v ∈ values) (hw : w ∈ values) (hkv : k.admits v = true)
    (hkw : k.admits w = true) (h : v.same w = true) : v.text = w.text := by
  cases v with
  | bool b =>
    cases w with
    | bool c => rw [eq_of_beq h]
    | _ => cases h
  | int i =>
    cases w with
    | int j => rw [eq_of_beq h]
    | _ => cases h
  | float x =>
    cases w with
    | float y =>
      have hmem : ∀ z, .float z ∈ values → z ∈ doubles values := fun z hz =>
        mem_filterMap.2 ⟨.float z, hz, rfl⟩
      rw [writtenAlike, List.all_eq_true] at halike
      have hxy := List.all_eq_true.1 (halike x (hmem x hv)) y (hmem y hw)
      have hequal : (x == y) = true := h
      simpa [bne, hequal] using hxy
    | _ => cases h
  | tuple | array => cases hkv

/-- A key of a group: its text, and the row of the input in which its values stand at the key
fields. -/
def KeyedBy (rows : Rows) (keys : List Nat) (text : String) (key : Row) : Prop :=
  text = Row.key key ∧ ∃ row ∈ rows, Forall₂ (fun k v => row[k]? = some v) keys key

/-- A key made of one field only. -/
theorem eq_replicate_of_key {row key : Row} {k : Nat} (hkeys : ∀ m ∈ keys, m = k)
    (hv : row[k]? = some v) (h : Forall₂ (fun k v => row[k]? = some v) keys key) :
    key = List.replicate keys.length v := by
  induction h with
  | nil => rfl
  | @cons m w keys key hw _ ih =>
    obtain rfl := hkeys m mem_cons_self
    obtain rfl := mem_unique hv hw
    rw [length_cons, replicate_succ, ← ih fun n hn => hkeys n (mem_cons_of_mem _ hn)]

/-- **The values of a key differ from group to group**, if there is no other key and equal values
are written alike. -/
theorem distinct_of_keyed {α : Type} {groups : Groups α} {keyOf : α → Row} {k : Nat}
    (hnodup : (groups.map Prod.fst).Nodup)
    (hkeyed : ∀ e ∈ groups, KeyedBy rows keys e.1 (keyOf e.2))
    (hi : keys[i]? = some k) (hkeys : ∀ m ∈ keys, m = k)
    (hadmits : ∀ v ∈ fieldValues rows k, kind.admits v = true)
    (halike : writtenAlike (fieldValues rows k) = true) :
    (groups.filterMap fun e => (keyOf e.2)[i]?).Pairwise fun v w => v.same w = false := by
  rw [pairwise_filterMap]
  refine (pairwise_map.1 hnodup).imp_of_mem fun {a b} ha hb hne v hv w hw => ?_
  have hmem : ∀ {e : String × α} {v : Value}, e ∈ groups → (keyOf e.2)[i]? = some v →
      v ∈ fieldValues rows k ∧ e.1 = Row.key (List.replicate keys.length v) := by
    intro e v he hv
    obtain ⟨htext, row, hrow, hfields⟩ := hkeyed e he
    have hget := forall₂_getElem? hfields hi hv
    exact ⟨mem_filterMap.2 ⟨row, hrow, hget⟩, eq_replicate_of_key hkeys hget hfields ▸ htext⟩
  obtain ⟨hvmem, hatext⟩ := hmem ha hv
  obtain ⟨hwmem, hbtext⟩ := hmem hb hw
  by_contra hsame
  have htext := Kind.text_eq_of_same halike hvmem hwmem (hadmits v hvmem) (hadmits w hwmem)
    (Bool.not_eq_false _ ▸ hsame)
  refine hne ?_
  rw [hatext, hbtext]
  exact Row.key_eq_of_texts (by rw [map_replicate, map_replicate, htext])

/-- Folding rows by key keeps one group per text of a key. -/
theorem keyed_reduceByKey {type : TupleType} {groups : Groups (Value × Row)}
    (h : rows.foldlM (reduceInto function type) [] = .ok groups) : (groups.map Prod.fst).Nodup ∧
      ∀ e ∈ groups, KeyedBy rows [0] e.1 [e.2.1] := by
  refine foldlM_ok_induction (P := fun groups : Groups (Value × Row) =>
    (groups.map Prod.fst).Nodup ∧ ∀ e ∈ groups, KeyedBy rows [0] e.1 [e.2.1]) ?_
    (by simp) h
  rintro groups row groups' hrow ⟨hnodup, hkeyed⟩ hstep
  cases row with
  | nil => cases hstep
  | cons key values =>
    refine ⟨Groups.nodup_update hnodup hstep, Groups.forall_update
      (P := fun text (a : Value × Row) => KeyedBy rows [0] text [a.1]) ?_ hkeyed hstep⟩
    intro a? b ha hb
    cases a? with
    | none =>
      cases hb
      exact ⟨rfl, _, hrow, .cons rfl .nil⟩
    | some a =>
      obtain ⟨acc, -, hb⟩ := bind_eq_ok_iff.1 hb
      cases hb
      exact ha a rfl

/-- Grouping rows keeps one group per text of all keys. -/
theorem keyed_groupBy {type : TupleType} {groups : Groups (Row × List Accumulator)}
    (h : rows.foldlM (aggregateInto keys aggregates type) [] = .ok groups) :
    (groups.map Prod.fst).Nodup ∧
      ∀ e ∈ groups, KeyedBy rows keys e.1 e.2.1 := by
  refine foldlM_ok_induction (P := fun groups : Groups (Row × List Accumulator) =>
    (groups.map Prod.fst).Nodup ∧ ∀ e ∈ groups, KeyedBy rows keys e.1 e.2.1) ?_ (by simp) h
  rintro groups row groups' hrow ⟨hnodup, hkeyed⟩ hstep
  obtain ⟨key, hkey, hstep⟩ := bind_eq_ok_iff.1 hstep
  refine ⟨Groups.nodup_update hnodup hstep, Groups.forall_update
    (P := fun text (a : Row × List Accumulator) => KeyedBy rows keys text a.1) ?_ hkeyed hstep⟩
  intro a? b ha hb
  obtain ⟨accumulators, -, hb⟩ := bind_eq_ok_iff.1 hb
  cases hb
  cases a? with
  | some a => exact ha a rfl
  | none =>
    refine ⟨rfl, row, hrow, (mapM_eq_ok_iff.1 hkey).imp fun k v hv => ?_⟩
    exact ofOption_eq_ok_iff.1 hv

/-! ### Fields that are passed on -/

theorem fieldValues_of_forall₂ {rows raw : Rows}
    (h : Forall₂ (fun row made : Row => made[position]? = row[index]?) rows raw) :
    fieldValues raw position = fieldValues rows index := by
  induction h with
  | nil => rfl
  | cons hrow _ ih =>
    rw [fieldValues, filterMap_cons, hrow, ← fieldValues, ih, fieldValues, fieldValues,
      filterMap_cons]

theorem getElem?_of_map {types : List TupleType} {v w : Value}
    (horigin : (primitive (.map function)).origin? n position = some (0, index))
    (h : function.evalTyped types [row] = .ok v) (hw : row[index]? = some w)
    (hfields : w.fields = [w]) :
    v.fields[position]? = some w := by
  obtain ⟨-, ⟨rfl, rfl⟩ | ⟨items, rfl, hitem⟩⟩ := Primitive.function_of_origin? horigin
  · have hv : row[index]? = some v := ofOption_eq_ok_iff.1 h
    obtain rfl := mem_unique hw hv
    rw [hfields]
    rfl
  · simp only [Expr.evalTyped, Expr.eval, Expr.evalAll_eq_mapM, bind_eq_ok_iff, mapM_eq_ok_iff] at h
    obtain ⟨values, hvalues, h⟩ := h
    cases h
    obtain ⟨value, hget, hvalue⟩ := exists_of_forall₂ hvalues hitem
    obtain rfl := mem_unique hw (ofOption_eq_ok_iff.1 hvalue)
    exact hget

theorem type?_of_map
    (horigin : (primitive (.map function)).origin? n position = some (0, index))
    (hresult : function.infer [input] = .ok result) (hk : input.type? index = some (.atomic k)) :
    result.row.type? position = some (.atomic k) := by
  obtain ⟨-, ⟨rfl, rfl⟩ | ⟨items, rfl, hitem⟩⟩ := Primitive.function_of_origin? horigin
  · have htype : input.type? index = some result := ofOption_eq_ok_iff.1 hresult
    obtain rfl := mem_unique hk htype
    rfl
  · simp only [Expr.infer, Expr.inferAll_eq_mapM, bind_eq_ok_iff, mapM_eq_ok_iff] at hresult
    obtain ⟨types, htypes, hresult⟩ := hresult
    cases hresult
    obtain ⟨type, hget, htype⟩ := exists_of_forall₂ htypes hitem
    obtain rfl := mem_unique hk (ofOption_eq_ok_iff.1 htype)
    rw [type?_eq_getElem?, row, TupleType.types_positional, hget]

theorem Kind.fields_of_admits (h : k.admits v = true) : v.fields = [v] := by
  cases v with
  | tuple fields => cases h
  | _ => rfl

section

variable {c : EvaluationContext} {s out : Stream} {n position index : Nat} {k : Kind}

theorem fieldValues_of_projection (hposition : positions[position]? = some index) (hs : s.Held)
    (h : evaluation.primitive c (.projection positions) [s] out) :
    out.type.type? position = s.type.type? index ∧
      fieldValues out.rows position = fieldValues s.rows index := by
  obtain ⟨hselect, hrows⟩ := (evaluation_projection_iff hs).1 h
  refine ⟨type?_of_select hselect hposition, fieldValues_of_forall₂ ?_⟩
  rw [hrows, forall₂_map_right_iff, forall₂_same]
  intro row hrow
  obtain ⟨_, v, -, -, hv, hselected⟩ := getElem?_select hselect (hs row hrow) hposition
  rw [hv, hselected]

theorem fieldValues_of_map
    (horigin : (primitive (.map function)).origin? n position = some (0, index))
    (hs : s.Held) (h : evaluation.primitive c (.map function) [s] out)
    (hk : s.type.type? index = some (.atomic k)) :
    out.type.type? position = some (.atomic k) ∧
      fieldValues out.rows position = fieldValues s.rows index := by
  obtain ⟨htype, raw, hraw, hrows⟩ := h
  have hposition : out.type.type? position = some (.atomic k) := by
    generalize out.type = output at htype ⊢
    cases Primitive.outputType_eq_ok_iff.1 htype with
    | map infers => exact type?_of_map horigin infers hk
  have hmade : ∀ row ∈ s.rows, ∀ made, (do
      return (← function.evalTyped [s.type] [row]).fields : Outcome Row) = .ok made →
      made[position]? = row[index]? := by
    intro row hrow made hmade
    obtain ⟨v, hv, hmade⟩ := bind_eq_ok_iff.1 hmade
    cases hmade
    obtain ⟨w, hw, hheld⟩ := (hs row hrow).get hk
    rw [hw, getElem?_of_map horigin hv hw (Kind.fields_of_admits hheld.admits)]
  refine ⟨hposition, ?_⟩
  rw [hrows, fieldValues_store hposition]
  · exact fieldValues_of_forall₂ (forall₂_imp_mem hmade (mapM_eq_ok_iff.1 hraw))
  · intro made hmem v hv
    obtain ⟨row, hrow, hfrom⟩ := mem_of_mapM hraw hmem
    exact hs.holds hk hrow (hmade row hrow made hfrom ▸ hv)

/-- **Operators that keep properties pass values on in their order**: the values of a field that
they pass on are some of those that it had, and have their type. -/
theorem sublist_of_keepsProperties {p : Primitive}
    (hkeeps : (primitive p).keepsProperties = true)
    (horigin : (primitive p).origin? n position = some (0, index)) (hs : s.Held)
    (h : evaluation.primitive c p [s] out) (hk : s.type.type? index = some (.atomic k)) :
    out.type.type? position = some (.atomic k) ∧
      (fieldValues out.rows position).Sublist (fieldValues s.rows index) := by
  cases p with
  | filter predicate =>
    cases horigin
    obtain ⟨-, htype, -, hrows⟩ := (evaluation_filter_iff hs).1 h
    rw [htype, hrows]
    exact ⟨hk, filter_sublist.filterMap _⟩
  | ensureSingleTuple =>
    cases horigin
    obtain ⟨htype, raw, hraw, hrows⟩ := h
    have hsame : s.type = out.type := Except.ok.inj htype
    obtain rfl : s.rows = raw := by
      simp only [Primitive.run, Primitive.runUnary] at hraw
      split at hraw
      · exact Except.ok.inj hraw
      · cases hraw
    rw [hrows, ← hsame, map_store_eq_self hs]
    exact ⟨hk, Sublist.refl _⟩
  | projection positions =>
    obtain ⟨_, hposition, hij⟩ := map_eq_some_iff.1 horigin
    cases hij
    obtain ⟨htype, hvalues⟩ := fieldValues_of_projection hposition hs h
    rw [hvalues]
    exact ⟨htype.trans hk, Sublist.refl _⟩
  | map function =>
    obtain ⟨htype, hvalues⟩ := fieldValues_of_map horigin hs h hk
    rw [hvalues]
    exact ⟨htype, Sublist.refl _⟩
  | _ => cases hkeeps

end

/-! ### Fields that are given properties -/

/-- Whether an operator can be taken at its word about a property that it gives to the field at a
position, when it works on the given rows.  A scan can if at most one array has items; its positions
are still sorted if no array but the last has more than one.  A group can if there is no other key,
and in the key no zero of both signs. -/
def Operator.vouches (p : Property) (op : Operator) (position : Nat) (input : Rows) : Bool :=
  match op with
  | .primitive (.rowScan _) =>
    let filled := (arraySizes input).filter (0 < ·)
    (arraySizes input).all (· ≤ 2 ^ 63) &&
      if p = .sorted then filled.dropLast.all (· = 1) else filled.length ≤ 1
  | .primitive (.groupBy keys _) =>
    match keys[position]? with
    | some k => keys.all (· = k) && writtenAlike (fieldValues input k)
    | none => true
  | .primitive (.reduceByKey _) => writtenAlike (fieldValues input 0)
  | _ => true

section

variable {p : Property} {c : EvaluationContext} {s out : Stream} {prim : Primitive}

theorem holdsOf_of_scan (h : evaluation.primitive c (.rowScan true) [s] out)
    (hvouches : (primitive (.rowScan true)).vouches p 0 s.rows = true) :
    out.type.type? 0 = some (.atomic .int64) ∧ p.HoldsOf (fieldValues out.rows 0) := by
  obtain ⟨htype, raw, hraw, hrows⟩ := h
  have hfirst : out.type.type? 0 = some (.atomic .int64) := by
    generalize out.type = output at htype ⊢
    cases Primitive.outputType_eq_ok_iff.1 htype
    rfl
  obtain ⟨parts, hparts, hflat⟩ : ∃ parts, s.rows.mapM (scanRow true) = .ok parts ∧
      parts.flatten = raw := by
    obtain ⟨parts, hparts, hflat⟩ := bind_eq_ok_iff.1 hraw
    exact ⟨parts, hparts, Except.ok.inj hflat⟩
  subst hflat
  refine ⟨hfirst, ?_⟩
  rw [hrows, fieldValues_store hfirst, fieldValues_scan hparts]
  · simp only [vouches, Bool.and_eq_true, List.all_eq_true, decide_eq_true_eq] at hvouches
    refine holdsOf_positions hvouches.1 ?_
    split
    · next hp => simpa [hp] using hvouches.2
    · next hp => simpa [hp] using hvouches.2
  · intro row hrow v hv
    obtain ⟨part, hpart, hrow⟩ := mem_flatten.1 hrow
    obtain ⟨source, -, hsource⟩ := mem_of_mapM hparts hpart
    obtain ⟨items, -, hvalues⟩ := fieldValues_scanRow hsource
    have hmem : v ∈ fieldValues part 0 := mem_filterMap.2 ⟨row, hrow, hv⟩
    rw [hvalues] at hmem
    obtain ⟨i, -, rfl⟩ := List.mem_map.1 hmem
    exact holds_int64 _

theorem Stream.Held.admits {k : Kind} (hs : s.Held) (hk : s.type.type? i = some (.atomic k)) :
    ∀ v ∈ fieldValues s.rows i, k.admits v = true := by
  intro v hv
  obtain ⟨row, hrow, hget⟩ := mem_filterMap.1 hv
  exact (hs.holds hk hrow hget).admits

/-- **The values of a key have the properties of values that differ**, if there is no other key and
equal values are written alike. -/
theorem holdsOf_of_keyed {α : Type} {groups : Groups α} {f m : α → Row} {k : Nat}
    (hkeyed : (groups.map Prod.fst).Nodup ∧ ∀ e ∈ groups, KeyedBy s.rows keys e.1 (f e.2))
    (hmade : ∀ e ∈ groups, (m e.2)[i]? = (f e.2)[i]?) (hi : keys[i]? = some k)
    (hkeys : ∀ n ∈ keys, n = k) (hs : s.Held) (hk : s.type.type? k = some (.atomic kind))
    (ht : out.type.type? i = some (.atomic kind))
    (hrows : out.rows = (groups.map fun e => m e.2).map out.type.store)
    (halike : writtenAlike (fieldValues s.rows k) = true) (hp : p ≠ .sorted) :
    p.HoldsOf (fieldValues out.rows i) := by
  have hvalues : fieldValues (groups.map fun e => m e.2) i =
      groups.filterMap fun e => (f e.2)[i]? := by
    rw [fieldValues, filterMap_map]
    exact filterMap_congr hmade
  rw [hrows, fieldValues_store ht, hvalues]
  · exact Property.holdsOf_of_distinct
      (distinct_of_keyed hkeyed.1 hkeyed.2 hi hkeys (hs.admits hk) halike) hp
  · intro row hrow v hv
    obtain ⟨e, he, rfl⟩ := List.mem_map.1 hrow
    rw [hmade e he] at hv
    obtain ⟨-, source, hsource, hfields⟩ := hkeyed.2 e he
    exact hs.holds hk hsource (forall₂_getElem? hfields hi hv)

theorem exists_kind (h : type.isAtomic = true) : ∃ k, type = .atomic k := by
  cases type with
  | atomic k => exact ⟨k, rfl⟩
  | tuple | array => cases h

theorem holdsOf_of_reduceByKey (hs : s.Held)
    (h : evaluation.primitive c (.reduceByKey function) [s] out) (hp : p ≠ .sorted)
    (hvouches : (primitive (.reduceByKey function)).vouches p 0 s.rows = true) :
    (∃ k, out.type.type? 0 = some (.atomic k)) ∧ p.HoldsOf (fieldValues out.rows 0) := by
  obtain ⟨htype, raw, hraw, hrows⟩ := h
  obtain ⟨kind, hkey, hsame⟩ : ∃ kind, s.type.type? 0 = some (.atomic kind) ∧
      s.type = out.type := by
    generalize out.type = output at htype
    cases Primitive.outputType_eq_ok_iff.1 htype with
    | reduceByKey hkey atomic =>
      obtain ⟨kind, rfl⟩ := exists_kind atomic
      exact ⟨kind, hkey, rfl⟩
  obtain ⟨groups, hgroups, hmap⟩ :=
    bind_eq_ok_iff.1 (hraw : reduceByKeyRows function s.type s.rows = .ok raw)
  cases hmap
  refine ⟨⟨kind, hsame ▸ hkey⟩, ?_⟩
  have halike : writtenAlike (fieldValues s.rows 0) = true := hvouches
  have hkeys : ∀ n ∈ [0], n = 0 := by simp
  have hout : out.type.type? 0 = some (.atomic kind) := hsame ▸ hkey
  have hfirst : ([0] : List Nat)[0]? = some 0 := rfl
  have hrows' : out.rows = (groups.map fun e => e.2.1 :: e.2.2).map out.type.store := hrows
  refine holdsOf_of_keyed (f := fun a : Value × Row => [a.1])
    (m := fun a : Value × Row => a.1 :: a.2) (keyed_reduceByKey hgroups)
    ?_ hfirst hkeys hs hkey hout hrows' halike hp
  intro e _
  rfl

theorem holdsOf_of_groupBy (hs : s.Held)
    (h : evaluation.primitive c (.groupBy keys aggregates) [s] out) (hp : p ≠ .sorted)
    (hi : i < keys.length)
    (hvouches : (primitive (.groupBy keys aggregates)).vouches p i s.rows = true) :
    (∃ k, out.type.type? i = some (.atomic k)) ∧ p.HoldsOf (fieldValues out.rows i) := by
  obtain ⟨htype, raw, hraw, hrows⟩ := h
  have hget : keys[i]? = some keys[i] := getElem?_eq_getElem hi
  obtain ⟨kind, hkey, hout⟩ : ∃ kind, s.type.type? keys[i] = some (.atomic kind) ∧
      out.type.type? i = some (.atomic kind) := by
    generalize out.type = output at htype ⊢
    cases Primitive.outputType_eq_ok_iff.1 htype with
    | groupBy hkeyTypes =>
      obtain ⟨type, htype, hkey, hatomic⟩ := exists_of_forall₂ hkeyTypes hget
      obtain ⟨kind, rfl⟩ := exists_kind hatomic
      refine ⟨kind, hkey, ?_⟩
      rw [type?_eq_getElem?, TupleType.types_positional]
      exact getElem?_append_left (hkeyTypes.length_eq ▸ hi) ▸ htype
  refine ⟨⟨kind, hout⟩, ?_⟩
  obtain ⟨groups, hgroups, hmap⟩ :=
    bind_eq_ok_iff.1 (hraw : groupRows keys aggregates s.type s.rows = .ok raw)
  cases hmap
  have hkeyed := keyed_groupBy hgroups
  have hmade : ∀ e ∈ groups, (e.2.1 ++ e.2.2.map Accumulator.value)[i]? = e.2.1[i]? := by
    intro e he
    obtain ⟨-, _, -, hfields⟩ := hkeyed.2 e he
    exact getElem?_append_left (hfields.length_eq ▸ hi)
  have hrows' : out.rows = (groups.map fun e => e.2.1 ++ e.2.2.map Accumulator.value).map
    out.type.store := hrows
  simp only [vouches, hget, Bool.and_eq_true, List.all_eq_true,
    decide_eq_true_eq] at hvouches
  exact holdsOf_of_keyed (f := fun a : Row × List Accumulator => a.1)
    (m := fun a : Row × List Accumulator => a.1 ++ a.2.map Accumulator.value)
    hkeyed hmade hget hvouches.1 hs hkey hout hrows' hvouches.2 hp

theorem exists_operand (hinputs : prim.inputs = 1)
    (h : evaluation.primitive c prim operands out) : ∃ s, operands = [s] := by
  obtain ⟨input, hinput, -⟩ := Primitive.exists_input h.1 hinputs
  exact (map_eq_singleton_iff.1 hinput).imp fun _ hs => hs.1

/-- **A property that an operator gives to a field is true of its values**, and they are atomic, if
the operator can be taken at its word. -/
theorem holdsOf_of_givesProperties (hcheck : prim.check = .ok ())
    (hgives : ((primitive prim).givesProperties position).has p = true)
    (hheld : ∀ s ∈ operands, s.Held) (h : evaluation.primitive c prim operands out)
    (hposition : position < out.type.length)
    (hvouches : ∀ s, operands = [s] → (primitive prim).vouches p position s.rows = true) :
    (∃ k, out.type.type? position = some (.atomic k)) ∧
      p.HoldsOf (fieldValues out.rows position) := by
  have hnone : ({} : Properties).has p = false := by cases p <;> rfl
  cases prim with
  | range r =>
    have hstep : r.step ≠ 0 := fun hzero => by simp [Primitive.check, hzero] at hcheck
    have hlength : out.type.length = 1 := by
      rw [type_of_range h.1]
      rfl
    obtain rfl : position = 0 := by omega
    exact holdsOf_of_range hstep p h
  | rowScan addIndex =>
    obtain ⟨s, rfl⟩ := exists_operand rfl h
    cases addIndex with
    | false => exact absurd hgives (by simp [givesProperties, hnone])
    | true =>
      obtain rfl : position = 0 := by
        by_contra hne
        simp [givesProperties, hne, hnone] at hgives
      exact (holdsOf_of_scan h (hvouches s rfl)).imp_left fun ht => ⟨_, ht⟩
  | groupBy keys aggregates =>
    obtain ⟨s, rfl⟩ := exists_operand rfl h
    have hlt : position < keys.length := by
      by_contra hge
      simp [givesProperties, hge, hnone] at hgives
    have hp : p ≠ .sorted := by
      rintro rfl
      simp [givesProperties, hlt] at hgives
    exact holdsOf_of_groupBy (hheld s mem_cons_self) h hp hlt (hvouches s rfl)
  | reduceByKey function =>
    obtain ⟨s, rfl⟩ := exists_operand rfl h
    obtain rfl : position = 0 := by
      by_contra hne
      simp [givesProperties, hne, hnone] at hgives
    have hp : p ≠ .sorted := by
      rintro rfl
      simp [givesProperties] at hgives
    exact holdsOf_of_reduceByKey (hheld s mem_cons_self) h hp (hvouches s rfl)
  | _ => exact absurd hgives (by simp [givesProperties, hnone])

end

end Dataflow
