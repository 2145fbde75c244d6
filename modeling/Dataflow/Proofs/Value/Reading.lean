/-
**Reading typed tuples back.**

Tuples and arrays are written alike, as arrays, and only the type tells them apart when a document
is read. A tuple of a type is read back from its document exactly if all doubles inside it are
finite, since the others are written `null`.  Conversely whatever is read against a type is a tuple
of the type, one that the check of given values accepts.

Main results:

* `FieldType.read_toJson_iff` — a value of a type is read back exactly if its doubles are finite;
* `FieldType.admits_of_read` — what is read against a type is a value of the type;
* `Tuple.make_eq_ok_iff` — values are accepted exactly if they are a row of the type;
* `Tuple.read_toJson` — **typed tuples are read back, and what is read is a tuple of the type**.
-/

import Dataflow.Proofs.Outcome
import Dataflow.Proofs.Value.Storage
import Dataflow.Value.Reading

namespace Dataflow

open List Outcome TupleType

variable {type : TupleType} {v : Value} {k : Kind} {j : Json} {values : List Value} {t : FieldType}

namespace Value

mutual

/-- Whether all doubles inside a value are finite. -/
def allFinite : Value → Bool
  | float x => x.isFinite
  | tuple fields => listAllFinite fields
  | array items => listAllFinite items
  | bool _ => true
  | int _ => true

/-- Whether all doubles inside some values are finite. -/
def listAllFinite : List Value → Bool
  | [] => true
  | v :: vs => v.allFinite && listAllFinite vs

end

@[simp] theorem listAllFinite_eq_all (vs : List Value) : listAllFinite vs = vs.all allFinite := by
  induction vs with
  | nil => rfl
  | cons v vs ih => rw [listAllFinite, ih, all_cons]

end Value

namespace Kind

theorem not_isInteger_of_isFloat (h : k.isFloat = true) : k.isInteger = false := by
  cases k with
  | float32 | float64 => rfl
  | _ => cases h

/-- A value of a kind is read back exactly if it is no double, or a finite one. -/
theorem read_toJson_iff (h : k.admits v = true) : k.read v.toJson = .ok v ↔ v.allFinite = true := by
  cases v with
  | bool b =>
    have hk : k = .bool := by simpa [admits] using h
    simp [read, hk, Value.toJson, Json.bool?, Value.allFinite]
  | int i =>
    have hint := isInteger_of_holds (h : k.holds i = true)
    have hne : k ≠ .bool := by rintro rfl; cases hint
    have hholds : k.holds i = true := h
    simp [read, hne, hint, hholds, Value.toJson, Value.allFinite]
  | float x =>
    have hfloat : k.isFloat = true := h
    have hne : k ≠ .bool := by rintro rfl; cases hfloat
    cases hx : x.isFinite with
    | true | false =>
      simp [read, hne, not_isInteger_of_isFloat hfloat, Value.toJson, Json.ofFloat, Json.float?,
        hx, Value.allFinite]
  | tuple | array => cases h

/-- What is read for a kind is a value of the kind. -/
theorem admits_of_read (h : k.read j = .ok v) : k.admits v = true := by
  unfold read at h
  split at h
  · next hk =>
    obtain ⟨b, -, hv⟩ := bind_eq_ok_iff.1 h
    cases hv
    simp [admits, hk]
  · next hne =>
    split at h
    · obtain ⟨i, -, hv⟩ := bind_eq_ok_iff.1 h
      split at hv
      · next hholds =>
        cases hv
        exact hholds
      · cases hv
    · next hint =>
      obtain ⟨x, -, hv⟩ := bind_eq_ok_iff.1 h
      cases hv
      cases k with
      | float32 | float64 => rfl
      | bool => exact absurd rfl hne
      | _ => exact absurd rfl hint

end Kind

namespace FieldType

/-- Values of some fields are read back exactly if their doubles are finite, if this is so field by
field. -/
theorem readAll_toJson_iff {fields : List (Named FieldType)}
    (hfields : ∀ f ∈ fields, ∀ v, f.type.admits v = true →
      (f.type.read v.toJson = .ok v ↔ v.allFinite = true))
    (h : admitsAll fields values = true) :
    readAll fields (values.map Value.toJson) = .ok values ↔ values.all Value.allFinite = true := by
  induction fields generalizing values with
  | nil => cases values with
    | nil => simp [readAll]
    | cons v values => cases h
  | cons f fields ih => cases values with
    | nil => cases h
    | cons v values =>
      obtain ⟨hv, hvalues⟩ := Bool.and_eq_true_iff.1 h
      rw [forall_mem_cons] at hfields
      rw [all_cons, Bool.and_eq_true, ← hfields.1 v hv, ← ih hfields.2 hvalues]
      simp only [map_cons, readAll, bind_eq_ok_iff, pure_eq_ok, Except.ok.injEq, cons.injEq]
      constructor
      · rintro ⟨w, hw, ws, hws, rfl, rfl⟩
        exact ⟨hw, hws⟩
      · rintro ⟨hw, hws⟩
        exact ⟨v, hw, values, hws, rfl, rfl⟩

/-- **A value of a type is read back exactly if its doubles are finite.** -/
theorem read_toJson_iff (h : t.admits v = true) : t.read v.toJson = .ok v ↔ v.allFinite = true := by
  induction t using induction generalizing v with
  | atomic k => exact Kind.read_toJson_iff h
  | tuple fields ih => cases v with
    | tuple values =>
      have hlen := length_eq_of_admits (t := fields) h
      have hall := readAll_toJson_iff (fun f hf v => ih f hf) h
      simp only [read, Value.toJson, Value.listToJson_eq_map, Json.array?_array,
        ofOption_some, ok_bind, List.length_map, hlen, ne_eq, not_true_eq_false, if_false,
        Value.allFinite, Value.listAllFinite_eq_all, ← hall]
      simp [bind_eq_ok_iff]
    | _ => cases h
  | array e ih => cases v with
    | array items =>
      have hitems : ∀ v ∈ items, e.admits v = true := List.all_eq_true.1 h
      simp only [read, Value.toJson, Value.listToJson_eq_map, Json.array?_array,
        ofOption_some, ok_bind, Value.allFinite, Value.listAllFinite_eq_all, bind_eq_ok_iff,
        mapM_eq_ok_iff, pure_eq_ok, Except.ok.injEq, Value.array.injEq, exists_eq_right,
        forall₂_map_left_iff, forall₂_same, List.all_eq_true]
      exact forall₂_congr fun v hv => ih (hitems v hv)
    | _ => cases h

/-- What is read for some fields is of their types, if this is so field by field. -/
theorem admitsAll_of_readAll {fields : List (Named FieldType)} {items : List Json}
    (hfields : ∀ f ∈ fields, ∀ j v, f.type.read j = .ok v → f.type.admits v = true)
    (hlen : items.length = fields.length) (h : readAll fields items = .ok values) :
    admitsAll fields values = true := by
  induction fields generalizing items values with
  | nil =>
    cases h
    rfl
  | cons f fields ih => cases items with
    | nil => cases hlen
    | cons item items =>
      obtain ⟨v, hv, hrest⟩ := bind_eq_ok_iff.1 h
      obtain ⟨vs, hvs, hvalues⟩ := bind_eq_ok_iff.1 hrest
      cases hvalues
      rw [forall_mem_cons] at hfields
      exact Bool.and_eq_true_iff.2 ⟨hfields.1 item v hv, ih hfields.2 (Nat.succ.inj hlen) hvs⟩

/-- **What is read against a type is a value of the type.** -/
theorem admits_of_read (h : t.read j = .ok v) : t.admits v = true := by
  induction t using induction generalizing j v with
  | atomic k => exact Kind.admits_of_read h
  | tuple fields ih =>
    obtain ⟨items, -, h⟩ := bind_eq_ok_iff.1 h
    obtain ⟨hlen, h⟩ := guard_eq_ok_iff.1 h
    obtain ⟨values, hvalues, hv⟩ := bind_eq_ok_iff.1 h
    cases hv
    exact admitsAll_of_readAll (fun f hf j v => ih f hf) (not_not.1 hlen) hvalues
  | array e ih =>
    obtain ⟨items, -, h⟩ := bind_eq_ok_iff.1 h
    obtain ⟨values, hvalues, hv⟩ := bind_eq_ok_iff.1 h
    cases hv
    refine List.all_eq_true.2 fun w hw => ?_
    obtain ⟨item, -, hitem⟩ := mem_of_mapM hvalues hw
    exact ih hitem

end FieldType

namespace Tuple

theorem firstMisfit?_eq_none_iff {values : Row} (hlen : values.length = type.length) :
    firstMisfit? type values = none ↔ type.admits values = true := by
  induction type generalizing values with
  | nil => cases values with
    | nil => exact iff_of_true rfl rfl
    | cons v values => cases hlen
  | cons field fields ih => cases values with
    | nil => cases hlen
    | cons v values =>
      have ih := ih (Nat.succ.inj hlen)
      simp only [admits] at ih
      cases hv : field.type.admits v with
      | true => simpa [firstMisfit?, admits, FieldType.admitsAll, hv] using ih
      | false => simp [firstMisfit?, admits, FieldType.admitsAll, hv]

/-- Values are accepted exactly if they are a row of the type. -/
theorem make_eq_ok_iff {values : Row} {tuple : Tuple} :
    make type values = .ok tuple ↔ type.admits values = true ∧ tuple = ⟨type, values⟩ := by
  unfold make
  split
  · next hlen =>
    exact iff_of_false nofun fun h => hlen (length_eq_of_admits h.1)
  · next hlen =>
    rw [← firstMisfit?_eq_none_iff (not_not.1 hlen)]
    cases firstMisfit? type values with
    | some misfit => simp
    | none => simp [eq_comm]

/-- A document is read to a row of the type. -/
theorem read_eq_ok_iff {tuple : Tuple} :
    read type j = .ok tuple ↔ tuple.type = type ∧
      (FieldType.tuple type).read j = .ok (.tuple tuple.values) := by
  simp only [read, TupleType.read, bind_eq_ok_iff, pure_eq_ok, Except.ok.injEq]
  constructor
  · rintro ⟨values, ⟨v, hv, rfl⟩, rfl⟩
    have hadmits := FieldType.admits_of_read hv
    cases v with
    | tuple values => exact ⟨rfl, hv⟩
    | _ => cases hadmits
  · rintro ⟨rfl, hv⟩
    exact ⟨tuple.values, ⟨_, hv, rfl⟩, rfl⟩

/-- **Typed tuples are read back, and what is read is a tuple of the type.**  Whatever the nesting
of tuples and arrays in a type, a row of the type is read back from its document exactly if all
doubles inside it are finite; and whatever is read against the type is a row of the type, one that
the check of given values accepts. -/
theorem read_toJson (t : TupleType) :
    (∀ row, t.admits row = true →
      (read t (Tuple.mk t row).toJson = .ok ⟨t, row⟩ ↔ ∀ v ∈ row, v.allFinite = true)) ∧
    ∀ j tuple, read t j = .ok tuple →
      tuple.type = t ∧ t.admits tuple.values = true ∧ make t tuple.values = .ok tuple := by
  refine ⟨fun row hrow => ?_, fun j tuple hread => ?_⟩
  · have hvalue : (FieldType.tuple t).admits (.tuple row) = true := hrow
    have hjson : (Tuple.mk t row).toJson = (Value.tuple row).toJson := by
      rw [toJson, Value.toJson, Value.listToJson_eq_map]
    rw [read_eq_ok_iff, hjson, FieldType.read_toJson_iff hvalue]
    simp [Value.allFinite]
  · obtain ⟨rfl, hread⟩ := read_eq_ok_iff.1 hread
    have hadmits : tuple.type.admits tuple.values = true := FieldType.admits_of_read hread
    exact ⟨rfl, hadmits, make_eq_ok_iff.2 ⟨hadmits, rfl⟩⟩

/-- A small integer beside an array of pairs, each of a number and an array that may be empty. -/
def measured : TupleType := [⟨"n", .atomic .int8⟩,
   ⟨"samples", .array (.tuple [⟨"x", .atomic .float32⟩, ⟨"flags", .array (.atomic .bool)⟩])⟩]

/-- A row of `measured`. -/
def measuredRow : Row :=
  [.int (-128), .array [.tuple [.float 0.5, .array [.bool true, .bool false]],
    .tuple [.float (-3), .array []]]]

theorem read_toJson_measured : measured.admits measuredRow = true ∧
    read measured (Tuple.mk measured measuredRow).toJson = .ok ⟨measured, measuredRow⟩ ∧
    make measured measuredRow = .ok ⟨measured, measuredRow⟩ := by
  have hadmits : measured.admits measuredRow = true := by decide
  have hfinite : ∀ v ∈ measuredRow, v.allFinite = true := by decide +kernel
  have hread := ((read_toJson measured).1 measuredRow hadmits).2 hfinite
  exact ⟨hadmits, hread, ((read_toJson measured).2 _ _ hread).2.2⟩

end Tuple

end Dataflow
