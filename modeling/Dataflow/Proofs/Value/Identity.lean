/-
**Which keys are equal.**

The text of an atomic value tells the value, but for doubles that are not finite: all of them are
written `null`.  So two keys are equal exactly if their values are, once infinity stands in the
place of every double that is not finite.  In particular the two zeros are different keys, and keys
without floating fields are equal exactly if their values are.

Main results:

* `Kind.text_eq_iff` — the text of a value of a kind tells the value, once it is settled;
* `Row.key_eq_iff` — **keys of atomic values are equal exactly if their settled values are**;
* `Row.key_eq_iff_of_not_float` — keys without floating fields are equal exactly if their values
  are.
-/

import Dataflow.Proofs.Json.Numerals
import Dataflow.Proofs.Value.Key

namespace Dataflow

open List

namespace Value

mutual

/-- Whether two values are the same, doubles compared bit by bit. -/
def decEq : (v w : Value) → Decidable (v = w)
  | bool a, bool b => decidable_of_iff (a = b) ⟨congrArg bool, bool.inj⟩
  | int i, int j => decidable_of_iff (i = j) ⟨congrArg int, int.inj⟩
  | float x, float y => decidable_of_iff (x = y) ⟨congrArg float, float.inj⟩
  | tuple vs, tuple ws =>
    @decidable_of_iff _ (vs = ws) ⟨congrArg tuple, tuple.inj⟩ (decEqList vs ws)
  | array vs, array ws =>
    @decidable_of_iff _ (vs = ws) ⟨congrArg array, array.inj⟩ (decEqList vs ws)
  | bool _, int _ | bool _, float _ | bool _, tuple _ | bool _, array _
  | int _, bool _ | int _, float _ | int _, tuple _ | int _, array _
  | float _, bool _ | float _, int _ | float _, tuple _ | float _, array _
  | tuple _, bool _ | tuple _, int _ | tuple _, float _ | tuple _, array _
  | array _, bool _ | array _, int _ | array _, float _ | array _, tuple _ => isFalse nofun

/-- Whether two lists of values are the same. -/
def decEqList : (vs ws : List Value) → Decidable (vs = ws)
  | [], [] => isTrue rfl
  | [], _ :: _ => isFalse nofun
  | _ :: _, [] => isFalse nofun
  | v :: vs, w :: ws =>
    @decidable_of_iff _ (v = w ∧ vs = ws)
      cons_eq_cons.symm (@instDecidableAnd _ _ (decEq v w) (decEqList vs ws))

end

instance : DecidableEq Value := decEq

/-- Infinity in place of a double that is not finite. -/
def settle : Value → Value
  | float x => float (if x.isFinite then x else Number.infinity false)
  | v => v

/-- Whether a value is no double, or a finite one. -/
def isFinite : Value → Bool
  | float x => x.isFinite
  | _ => true

end Value

theorem Number.isFinite_infinity (negative : Bool) : (infinity negative).isFinite = false := by
  rw [Bool.eq_false_iff]
  intro hfinite
  obtain ⟨d, hd⟩ := exists_ofFloat_of_isFinite hfinite
  rw [ofFloat_infinity] at hd
  cases hd

/-- The text of a finite double is not that of the others. -/
theorem Json.render_ne_null {x : Float} (hx : x.isFinite = true) :
    Number.Layout.json.render x ≠ "null" := by
  intro h
  have hwhole := isWhole_numeralOf_render .json hx
  rw [h] at hwhole
  exact absurd hwhole (by decide)

theorem Number.ne_infinity {x : Float} (hx : x.isFinite = true) : x ≠ infinity false := by
  rintro rfl
  rw [isFinite_infinity] at hx
  cases hx

/-- Settled values are the same exactly if the values are, or are doubles that are not finite. -/
theorem Value.settle_eq_iff {v w : Value} : v.settle = w.settle ↔ v = w ∨ v.isFinite = false ∧
      w.isFinite = false := by
  cases v with
  | float x =>
    cases w with
    | float y =>
      simp only [settle, isFinite, float.injEq]
      cases hx : x.isFinite <;> cases hy : y.isFinite
      · simp
      · simpa [(Number.ne_infinity hy).symm] using fun h => by simp [h, hy] at hx
      · simpa [Number.ne_infinity hx] using fun h => by simp [h, hy] at hx
      · simp
    | _ => simp [settle, isFinite]
  | _ => cases w <;> simp [settle, isFinite]

theorem map_settle_eq_iff {vs ws : List Value} : vs.map Value.settle = ws.map Value.settle ↔
    Forall₂ (fun v w => v = w ∨ v.isFinite = false ∧ w.isFinite = false) vs ws := by
  rw [← forall₂_eq_eq_eq, forall₂_map_left_iff, forall₂_map_right_iff]
  simp only [Value.settle_eq_iff]

/-- The text of a double tells the double, once it is settled. -/
theorem Value.text_float_eq_iff {x y : Float} :
    (float x).text = (float y).text ↔ (float x).settle = (float y).settle := by
  simp only [text, toJson, Json.ofFloat, settle, float.injEq]
  split
  · next hx =>
    split
    · next hy =>
      refine ⟨fun h => Json.eq_of_numeralOf_render .json hx hy (congrArg Json.numeralOf h),
        fun h => ?_⟩
      rw [h]
    · exact iff_of_false (Json.render_ne_null hx) (Number.ne_infinity hx)
  · split
    · next hy => exact iff_of_false (Json.render_ne_null hy).symm (Number.ne_infinity hy).symm
    · exact iff_of_true rfl rfl

namespace Kind

theorem float_of_admits {k : Kind} {v : Value} (hk : k.isFloat = true) (hv : k.admits v = true) :
    ∃ x, v = .float x := by
  cases v with
  | float x => exact ⟨x, rfl⟩
  | bool b => cases k <;> simp [isFloat, admits] at hk hv
  | int i => cases k <;> simp [isFloat, admits, holds, bounds?] at hk hv
  | tuple | array => cases hv

theorem settle_of_admits {k : Kind} {v : Value} (hk : k.isFloat = false) (hv : k.admits v = true) :
    v.settle = v := by
  cases v with
  | float x => simp [admits, hk] at hv
  | _ => rfl

/-- **The text of a value of a kind tells the value**, once it is settled. -/
theorem text_eq_iff {k : Kind} {v w : Value} (hv : k.admits v = true) (hw : k.admits w = true) :
    v.text = w.text ↔ v.settle = w.settle := by
  cases hk : k.isFloat with
  | true =>
    obtain ⟨x, rfl⟩ := float_of_admits hk hv
    obtain ⟨y, rfl⟩ := float_of_admits hk hw
    exact Value.text_float_eq_iff
  | false =>
    rw [settle_of_admits hk hv, settle_of_admits hk hw]
    exact ⟨eq_of_compact hk hv hw, fun h => by rw [h]⟩

end Kind

section

variable {types : List FieldType} {xs ys : Row} (hatomic : ∀ t ∈ types, t.isAtomic = true)
  (hxs : Forall₂ (fun t v => FieldType.admits t v = true) types xs)
include hatomic hxs

/-- **Keys of atomic values are equal exactly if their settled values are.** -/
theorem Row.key_eq_iff (hys : Forall₂ (fun t v => FieldType.admits t v = true) types ys) :
    Row.key xs = Row.key ys ↔ xs.map Value.settle = ys.map Value.settle := by
  rw [Row.key_eq_iff_texts hatomic hxs hys]
  induction hxs generalizing ys with
  | nil =>
    cases hys
    simp
  | @cons t v types xs hv _ ih =>
    cases hys with
    | @cons _ w _ ys hw hys =>
      rw [forall_mem_cons] at hatomic
      simp only [map_cons, cons_eq_cons, ih hatomic.2 hys]
      cases t with
      | atomic k => rw [Kind.text_eq_iff hv hw]
      | tuple | array => cases hatomic.1

theorem map_settle_of_not_float (hfloat : ∀ t ∈ types, t.isFloat = false) :
    xs.map Value.settle = xs := by
  induction hxs with
  | nil => rfl
  | @cons t v types xs hv _ ih =>
    rw [forall_mem_cons] at hatomic hfloat
    rw [map_cons, ih hatomic.2 hfloat.2]
    cases t with
    | atomic k => rw [Kind.settle_of_admits hfloat.1 hv]
    | tuple | array => cases hatomic.1

/-- Keys without floating fields are equal exactly if their values are. -/
theorem Row.key_eq_iff_of_not_float (hfloat : ∀ t ∈ types, t.isFloat = false)
    (hys : Forall₂ (fun t v => FieldType.admits t v = true) types ys) :
    Row.key xs = Row.key ys ↔ xs = ys := by
  rw [Row.key_eq_iff hatomic hxs hys, map_settle_of_not_float hatomic hxs hfloat,
    map_settle_of_not_float hatomic hys hfloat]

end

end Dataflow
