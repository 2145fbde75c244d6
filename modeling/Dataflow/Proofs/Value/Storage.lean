/-
**Storing values at types.**

What an operator computes is stored at its output type.  A value that has the shape of a type,
whatever the width of its integers and the precision of its numbers, is a value of the type once it
is stored, and storing it again changes nothing.  Rows are followed through operators as rows that
their type *holds*: every field is of its type and is left alone by storing.

Main results:

* `FieldType.induction` — induction along the types inside a type;
* `FieldType.store_store` — **storing twice is storing once**;
* `FieldType.admits_store` — a value that fits is of the type once it is stored;
* `FieldType.store_normalizes` — **storing is a normalization**, which leaves values of types
  without single precision alone;
* `TupleType.holds_store` — a row that fits is held by its type once it is stored.
-/

import Dataflow.Proofs.Number.Single
import Dataflow.Value.Typed
import Mathlib.Data.List.Forall2

namespace Dataflow

open List

variable {k : Kind} {i : Nat} {v : Value}

/-- A relation between two lists follows from another one that implies it on the members of the
first list. -/
theorem forall₂_imp_mem {α β : Type} {R S : α → β → Prop} {xs : List α} {ys : List β}
    (himp : ∀ x ∈ xs, ∀ y, R x y → S x y) (h : Forall₂ R xs ys) : Forall₂ S xs ys := by
  induction h with
  | nil => exact .nil
  | @cons x y xs ys hxy _ ih =>
    exact .cons (himp x mem_cons_self y hxy) (ih fun z hz => himp z (mem_cons_of_mem x hz))

theorem forall₂_getElem? {α β : Type} {R : α → β → Prop} {xs : List α} {ys : List β}
    (h : Forall₂ R xs ys) {x : α} {y : β} (hx : xs[i]? = some x)
    (hy : ys[i]? = some y) : R x y := by
  induction h generalizing i with
  | nil => simp at hx
  | @cons a b as bs hab _ ih =>
    cases i with
    | zero =>
      simp only [getElem?_cons_zero, Option.some.injEq] at hx hy
      exact hx ▸ hy ▸ hab
    | succ i => exact ih (by simpa using hx) (by simpa using hy)

/-- What stands on the left has a partner on the right. -/
theorem exists_of_forall₂ {α β : Type} {R : α → β → Prop} {xs : List α} {ys : List β}
    (h : Forall₂ R xs ys) {x : α} (hx : xs[i]? = some x) : ∃ y, ys[i]? = some y ∧ R x y := by
  have hy := getElem?_eq_getElem (h.length_eq ▸ (List.getElem?_eq_some_iff.1 hx).1)
  exact ⟨_, hy, forall₂_getElem? h hx hy⟩

/-! ### Atomic fields -/

namespace Kind

@[simp] theorem wrap_wrap (k : Kind) (i : Int64) : k.wrap (k.wrap i) = k.wrap i := by
  cases k <;> simp [wrap]

/-- An integer kind holds the integers that it does not cut. -/
theorem holds_iff {i : Int64} : k.holds i = true ↔ k.isInteger = true ∧ k.wrap i = i := by
  have hle := i.le_toInt
  have hlt := i.toInt_lt
  cases k with
  | bool | float32 | float64 =>
    exact iff_of_false Bool.false_ne_true fun h => Bool.false_ne_true h.1
  | int64 =>
    simp only [holds, bounds?, wrap, Int64.toInt_minValue, Int64.toInt_maxValue,
      Bool.and_eq_true, decide_eq_true_eq]
    exact iff_of_true (by omega) ⟨rfl, trivial⟩
  | int8 | int16 | int32 =>
    simp only [holds, bounds?, wrap, ← Int64.toInt_inj, Int8.toInt_toInt64, Int16.toInt_toInt64,
      Int32.toInt_toInt64, Int64.toInt_toInt8, Int64.toInt_toInt16, Int64.toInt_toInt32,
      Int.bmod_def, Int8.toInt_minValue, Int8.toInt_maxValue, Int16.toInt_minValue,
      Int16.toInt_maxValue, Int32.toInt_minValue, Int32.toInt_maxValue, Bool.and_eq_true,
      decide_eq_true_eq, isInteger, bits?, Option.isSome_some, true_and]
    split <;> omega

theorem holds_wrap (hk : k.isInteger = true) (i : Int64) : k.holds (k.wrap i) = true :=
  holds_iff.2 ⟨hk, wrap_wrap k i⟩

theorem isInteger_of_holds {i : Int64} (h : k.holds i = true) :
    k.isInteger = true := (holds_iff.1 h).1

@[simp] theorem storeFloat_storeFloat (k : Kind) (x : Float) :
    k.storeFloat (k.storeFloat x) = k.storeFloat x := by
  unfold storeFloat
  split
  · exact Number.toSingle_toSingle x
  · rfl

theorem store_store (k : Kind) (v : Value) : k.store (k.store v) = k.store v := by
  cases v with
  | int i =>
    cases hint : k.isInteger with
    | true => simp [store, hint]
    | false =>
      cases hfloat : k.isFloat with
      | true | false => simp [store, hint, hfloat]
  | float x => simp [store]
  | bool | tuple | array => rfl

/-- Whether a value has the shape of an atomic field: truth values for truth values, integers for
integers, and any number for a floating kind. -/
def fits (k : Kind) : Value → Bool
  | .bool _ => k = .bool
  | .int _ => k.isNumeric
  | .float _ => k.isFloat
  | .tuple _ => false
  | .array _ => false

theorem fits_of_admits (h : k.admits v = true) : k.fits v = true := by
  cases v with
  | int i => simp [fits, isNumeric, isInteger_of_holds (h : k.holds i = true)]
  | bool | float | tuple | array => exact h

theorem admits_store (h : k.fits v = true) : k.admits (k.store v) = true := by
  cases v with
  | int i =>
    cases hint : k.isInteger with
    | true => simpa [store, hint, admits] using holds_wrap hint i
    | false =>
      have hfloat : k.isFloat = true := by simpa [fits, isNumeric, hint] using h
      simp [store, hint, hfloat, admits]
  | bool | float | tuple | array => exact h

theorem store_of_admits (h : k.admits v = true) (hk : k ≠ .float32) : k.store v = v := by
  cases v with
  | int i =>
    obtain ⟨hint, hwrap⟩ := holds_iff.1 (h : k.holds i = true)
    rw [store, if_pos hint, hwrap]
  | float x => rw [store, storeFloat, if_neg hk]
  | bool | tuple | array => rfl

end Kind

/-! ### Fields of any type -/

namespace FieldType

/-- What holds of a type whenever it holds of the types inside it holds of every type. -/
theorem induction {P : FieldType → Prop} (atomic : ∀ k, P (atomic k))
    (tuple : ∀ fields, (∀ f ∈ fields, P f.type) → P (tuple fields))
    (array : ∀ e, P e → P (array e)) : ∀ t, P t
  | .atomic k => atomic k
  | .tuple fields => tuple fields fun f _ => induction atomic tuple array f.type
  | .array e => array e (induction atomic tuple array e)
termination_by t => sizeOf t
decreasing_by
  · next hf =>
    have := sizeOf_lt_of_mem hf
    obtain ⟨name, type⟩ := f
    simp only [Named.mk.sizeOf_spec, FieldType.tuple.sizeOf_spec] at *
    omega
  · simp

mutual

/-- Whether a value has the shape of a type. -/
def fits : FieldType → Value → Bool
  | atomic k, v => k.fits v
  | tuple fields, .tuple values => fitsAll fields values
  | array element, .array items => items.all (fits element)
  | _, _ => false

/-- Whether there is one value per field, each of the shape of its field. -/
def fitsAll : List (Named FieldType) → List Value → Bool
  | [], [] => true
  | ⟨_, type⟩ :: fields, v :: values => fits type v && fitsAll fields values
  | _, _ => false

end

variable {values : List Value} {t : FieldType} {v : Value}

theorem fitsAll_iff {fields : List (Named FieldType)} : fitsAll fields values = true ↔
      Forall₂ (fun type v => fits type v = true) (fields.map (·.type)) values := by
  induction fields generalizing values with
  | nil => cases values <;> simp [fitsAll]
  | cons f fields ih => cases values with
    | nil => simp [fitsAll]
    | cons v values => simp [fitsAll, ih]

theorem admitsAll_iff {fields : List (Named FieldType)} : admitsAll fields values = true ↔
      Forall₂ (fun type v => admits type v = true) (fields.map (·.type)) values := by
  induction fields generalizing values with
  | nil => cases values <;> simp [admitsAll]
  | cons f fields ih => cases values with
    | nil => simp [admitsAll]
    | cons v values => simp [admitsAll, ih]

theorem storeAll_eq (fields : List (Named FieldType)) (values : List Value) :
    storeAll fields values = zipWith store (fields.map (·.type)) values := by
  induction fields generalizing values with
  | nil => simp [storeAll]
  | cons f fields ih => cases values with
    | nil => simp [storeAll]
    | cons v values => simp [storeAll, ih]

theorem zipWith_store_store {types : List FieldType}
    (h : ∀ t ∈ types, ∀ v, t.store (t.store v) = t.store v) :
    zipWith store types (zipWith store types values) = zipWith store types values := by
  induction types generalizing values with
  | nil => rfl
  | cons t types ih => cases values with
    | nil => rfl
    | cons v values =>
      simp only [zipWith_cons_cons, h t mem_cons_self, ih fun s hs => h s (mem_cons_of_mem t hs)]

theorem zipWith_store {types : List FieldType}
    (h : Forall₂ (fun t v => store t v = v) types values) :
    zipWith store types values = values := by
  induction h with
  | nil => rfl
  | cons hv _ ih => rw [zipWith_cons_cons, hv, ih]

/-- **Storing twice is storing once.** -/
theorem store_store (t : FieldType) (v : Value) : t.store (t.store v) = t.store v := by
  induction t using induction generalizing v with
  | atomic k => simp [store, Kind.store_store]
  | tuple fields ih =>
    cases v with
    | tuple values =>
      simp only [store]
      split
      · next hlen =>
        have hlen' : (storeAll fields values).length = fields.length :=
          TupleType.length_storeAll hlen
        rw [if_pos hlen', storeAll_eq, storeAll_eq]
        refine congrArg Value.tuple (zipWith_store_store ?_)
        rintro _ ht w
        obtain ⟨f, hf, rfl⟩ := List.mem_map.1 ht
        exact ih f hf w
      · rfl
    | bool | int | float | array => simp [store]
  | array e ih =>
    cases v with
    | array items => simp [store, ih]
    | bool | int | float | tuple => simp [store]

theorem fits_of_admits (h : t.admits v = true) : t.fits v = true := by
  induction t using induction generalizing v with
  | atomic k => exact Kind.fits_of_admits (by simpa [admits] using h)
  | tuple fields ih =>
    cases v with
    | tuple values =>
      simp only [admits, admitsAll_iff, fits, fitsAll_iff, forall₂_map_left_iff] at h ⊢
      exact forall₂_imp_mem (fun f hf v hv => ih f hf hv) h
    | bool | int | float | array => simp [admits] at h
  | array e ih =>
    cases v with
    | array items =>
      simp only [admits, fits, List.all_eq_true] at h ⊢
      exact fun item hitem => ih (h item hitem)
    | bool | int | float | tuple => simp [admits] at h

/-- A value that has the shape of a type is one of the type once it is stored. -/
theorem admits_store (h : t.fits v = true) : t.admits (t.store v) = true := by
  induction t using induction generalizing v with
  | atomic k => simpa [admits, store] using Kind.admits_store (by simpa [fits] using h)
  | tuple fields ih =>
    cases v with
    | tuple values =>
      simp only [fits, fitsAll_iff, forall₂_map_left_iff] at h
      have hlen : values.length = fields.length := h.length_eq.symm
      simp only [store, if_pos hlen, admits, admitsAll_iff, storeAll_eq, forall₂_map_left_iff,
        zipWith_map_left]
      clear hlen
      induction h with
      | nil => exact .nil
      | @cons f v fields values hv _ ihv =>
        exact .cons (ih f mem_cons_self hv) (ihv fun g hg => ih g (mem_cons_of_mem f hg))
    | bool | int | float | array => simp [fits] at h
  | array e ih =>
    cases v with
    | array items =>
      simp only [fits, List.all_eq_true, admits, store] at h ⊢
      intro item hitem
      obtain ⟨old, hold, rfl⟩ := List.mem_map.1 hitem
      exact ih (h old hold)
    | bool | int | float | tuple => simp [fits] at h

mutual

/-- Whether there is a field of single precision in a type. -/
def single : FieldType → Bool
  | atomic k => k = .float32
  | tuple fields => anySingle fields
  | array element => element.single

def anySingle : List (Named FieldType) → Bool
  | [] => false
  | ⟨_, type⟩ :: fields => type.single || anySingle fields

end

theorem anySingle_eq_false_iff {fields : List (Named FieldType)} :
    anySingle fields = false ↔ ∀ f ∈ fields, f.type.single = false := by
  induction fields with
  | nil => simp [anySingle]
  | cons f fields ih => simp [anySingle, ih]

/-- A value of a type is left alone by storing, unless it is rounded to single precision. -/
theorem store_of_admits (h : t.admits v = true) (hsingle : t.single = false) : t.store v = v := by
  induction t using induction generalizing v with
  | atomic k =>
    exact Kind.store_of_admits (by simpa [admits] using h) (by simpa [single] using hsingle)
  | tuple fields ih =>
    cases v with
    | tuple values =>
      rw [admits, admitsAll_iff, forall₂_map_left_iff] at h
      rw [single, anySingle_eq_false_iff] at hsingle
      rw [store, if_pos h.length_eq.symm, storeAll_eq]
      refine congrArg Value.tuple (zipWith_store (forall₂_map_left_iff.2 ?_))
      exact forall₂_imp_mem (fun f hf v hv => ih f hf hv (hsingle f hf)) h
    | bool | int | float | array => simp [admits] at h
  | array e ih =>
    cases v with
    | array items =>
      rw [admits, List.all_eq_true] at h
      rw [store, map_congr_left fun item hitem => ih (h item hitem) hsingle, List.map_id']
    | bool | int | float | tuple => simp [admits] at h

/-- **Storing is a normalization**: it does nothing the second time, it gives values of the type to
all that has the shape of the type, and it changes no value of the type but by rounding to single
precision. -/
theorem store_normalizes (t : FieldType) (v : Value) : t.store (t.store v) = t.store v ∧
    (t.fits v = true → t.admits (t.store v) = true) ∧
    (t.admits v = true → t.single = false → t.store v = v) :=
  ⟨store_store t v, admits_store, store_of_admits⟩

/-- The readings of a sensor. -/
def reading : FieldType :=
  .tuple [⟨"sensor", .atomic .int8⟩,
    ⟨"samples", .array (.tuple [⟨"x", .atomic .float64⟩, ⟨"ok", .atomic .bool⟩])⟩]

/-- A number that is too large for its field is cut and then left alone; an integer sample becomes a
double. -/
theorem reading_store_normalizes :
    reading.fits (.tuple [.int 300, .array [.tuple [.int 7, .bool true]]]) = true ∧
    reading.admits (reading.store (.tuple [.int 300, .array [.tuple [.int 7, .bool true]]])) =
      true ∧
    reading.single = false ∧
      reading.store (.tuple [.int 44, .array []]) = .tuple [.int 44, .array []] :=
  ⟨by decide, (store_normalizes _ _).2.1 (by decide), by decide,
    (store_normalizes _ _).2.2 (by decide) (by decide)⟩

/-- A value of a type as storing leaves it. -/
structure Holds (t : FieldType) (v : Value) : Prop where
  admits : t.admits v = true
  stored : t.store v = v

theorem holds_store (h : t.fits v = true) : t.Holds (t.store v) := ⟨admits_store h, store_store t v⟩

theorem Holds.fits (h : t.Holds v) : t.fits v = true := fits_of_admits h.admits

end FieldType

/-! ### Rows -/

namespace TupleType

/-- A row of a tuple type as storing leaves it: one value per field, each of the type of its field
and left alone by storing. -/
def Holds (t : TupleType) (row : Row) : Prop := Forall₂ FieldType.Holds t.types row

/-- A row that has one value per field, each of the shape of its field. -/
def Fits (t : TupleType) (row : Row) : Prop :=
  Forall₂ (fun type v => FieldType.fits type v = true) t.types row

variable {t : TupleType} {row : Row} {type : FieldType}

theorem admits_iff :
    t.admits row = true ↔ Forall₂ (fun type v => FieldType.admits type v = true) t.types row :=
  FieldType.admitsAll_iff

theorem Holds.admits (h : t.Holds row) : t.admits row = true :=
  admits_iff.2 (h.imp fun _ _ hv => hv.admits)

theorem Holds.fits (h : t.Holds row) : t.Fits row := h.imp fun _ _ hv => hv.fits

theorem fits_of_admits (h : t.admits row = true) : t.Fits row :=
  (admits_iff.1 h).imp fun _ _ hv => FieldType.fits_of_admits hv

theorem length_types (t : TupleType) : t.types.length = t.length := by
  simp [types]

theorem Holds.length_eq (h : t.Holds row) : row.length = t.length := by
  rw [← length_types, Forall₂.length_eq h]

theorem store_eq (h : row.length = t.types.length) :
    t.store row = zipWith FieldType.store t.types row := by
  rw [length_types] at h
  rw [store, if_pos h, FieldType.storeAll_eq]
  rfl

theorem store_store (t : TupleType) (row : Row) : t.store (t.store row) = t.store row := by
  by_cases hlen : row.length = t.types.length
  · have hlen' : (t.store row).length = t.types.length := by rw [length_store, hlen]
    rw [store_eq hlen', store_eq hlen]
    exact FieldType.zipWith_store_store fun type _ v => FieldType.store_store type v
  · have hstore : t.store row = row := by
      rw [store, if_neg (by rwa [← length_types])]
    rw [hstore, hstore]

/-- **A row that fits is held by its type once it is stored.** -/
theorem holds_store (h : t.Fits row) : t.Holds (t.store row) := by
  rw [Fits] at h
  rw [store_eq h.length_eq.symm, Holds]
  generalize t.types = types at h
  induction h with
  | nil => exact .nil
  | cons hv _ ih => exact .cons (FieldType.holds_store hv) ih

theorem Holds.store_eq_self (h : t.Holds row) : t.store row = row := by
  rw [Holds] at h
  rw [store_eq h.length_eq.symm]
  exact FieldType.zipWith_store (h.imp fun _ _ hv => hv.stored)

/-- A row is held by its type if it is admitted and left alone by storing. -/
theorem holds_iff : t.Holds row ↔ t.admits row = true ∧ t.store row = row := by
  refine ⟨fun h => ⟨h.admits, h.store_eq_self⟩, fun ⟨hadmits, hstore⟩ => ?_⟩
  have hholds := holds_store (fits_of_admits hadmits)
  rwa [hstore] at hholds

theorem store_vectorOf {rows : Rows} (h : rows.map t.store = rows) :
    t.vectorOf.store [.array (rows.map .tuple)] = [.array (rows.map .tuple)] := by
  have hitems : (rows.map Value.tuple).map (FieldType.store (.tuple t)) = rows.map .tuple := by
    nth_rewrite 2 [← h]
    rw [List.map_map, List.map_map]
    refine map_congr_left fun row _ => ?_
    rw [Function.comp, FieldType.store]
    rfl
  have hstore : t.vectorOf.store [.array (rows.map .tuple)] =
      [FieldType.store (.array (.tuple t)) (.array (rows.map .tuple))] := rfl
  rw [hstore, FieldType.store, hitems]

/-- What the values of a row have of their types, each of them has of the type of its field. -/
theorem get_of_forall₂ {P : FieldType → Value → Prop} (h : Forall₂ P t.types row)
    (hi : t.type? i = some type) : ∃ v, row[i]? = some v ∧ P type v := by
  have hget : t.types[i]? = some type := by simpa [types, type?] using hi
  obtain ⟨v, hv⟩ : ∃ v, row[i]? = some v := by
    have hlt := (List.getElem?_eq_some_iff.1 hget).1
    rw [Forall₂.length_eq h] at hlt
    exact ⟨row[i], getElem?_eq_getElem hlt⟩
  exact ⟨v, hv, forall₂_getElem? h hget hv⟩

theorem Holds.get (h : t.Holds row) (hi : t.type? i = some type) : ∃ v,
    row[i]? = some v ∧ type.Holds v :=
  get_of_forall₂ h hi

end TupleType

end Dataflow
