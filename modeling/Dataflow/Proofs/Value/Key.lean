/-
**What equal keys say.**

Rows are matched by the text of their key fields.  The texts of atomic values have no comma, so
equal keys have equal texts field by field; the texts of truth values and integers determine the
values. Doubles are no such values: all that are not finite have one text.

Main results:

* `Json.compact_array_injective` — arrays of the same length whose items have no comma are told
  apart by their items;
* `Kind.eq_of_compact` — values of a kind that is not floating are told apart by their texts;
* `Row.key_eq_iff_texts` — **keys of atomic values are equal exactly if their values are written
  alike**;
* `Row.getElem?_eq_of_key` — **key fields that are not floating are equal if the keys are**.
-/

import Dataflow.Proofs.Number.Text
import Dataflow.Proofs.Value.Storage

namespace Dataflow

open List FieldType

theorem Json.compactItems_eq_map (items : List Json) : compactItems items = items.map compact := by
  induction items with
  | nil => rfl
  | cons item items ih => rw [compactItems, map_cons, ih]

/-- Arrays of the same length whose items have no comma are told apart by their items. -/
theorem Json.compact_array_injective {xs ys : List Json} (hlength : xs.length = ys.length)
    (hxs : ∀ x ∈ xs, ',' ∉ x.compact.toList) (hys : ∀ y ∈ ys, ',' ∉ y.compact.toList)
    (h : (array xs).compact = (array ys).compact) : xs.map compact = ys.map compact := by
  simp only [compact, compactItems_eq_map, String.append_left_inj, String.append_right_inj] at h
  by_cases hnil : xs = []
  · subst hnil
    rw [List.length_eq_zero_iff.1 hlength.symm]
  · have hsplit : ∀ zs : List Json, zs ≠ [] → (∀ z ∈ zs, ',' ∉ z.compact.toList) →
        ((",".intercalate (zs.map compact)).split ',').toList.map (·.copy) = zs.map compact := by
      intro zs hne hzs
      have hcommas : ∀ s ∈ zs.map compact, ',' ∉ s.toList := by
        intro s hs
        obtain ⟨z, hz, rfl⟩ := List.mem_map.1 hs
        exact hzs z hz
      have := String.toList_split_intercalate hcommas
      rwa [if_neg (by simpa using hne)] at this
    have hys' : ys ≠ [] := fun heq => hnil (List.length_eq_zero_iff.1 (by rw [hlength, heq]; rfl))
    rw [← hsplit xs hnil hxs, h, hsplit ys hys' hys]

theorem Kind.comma_not_mem_compact {k : Kind} {v : Value} (h : k.admits v = true) :
    ',' ∉ v.toJson.compact.toList := by
  cases v with
  | bool b => cases b <;> simp [Value.toJson, Json.compact]
  | int i => exact (Number.numeral_toString i.toInt).not_mem rfl
  | float x =>
    simp only [Value.toJson, Json.ofFloat]
    split
    · exact (Number.Layout.numeral_render (by decide) (by decide) x).not_mem rfl
    · simp [Json.compact]
  | tuple | array => cases h

/-- Values of a kind that is not floating are told apart by their texts. -/
theorem Kind.eq_of_compact {k : Kind} (hk : k.isFloat = false) {v w : Value}
    (hv : k.admits v = true) (hw : k.admits w = true) (h : v.toJson.compact = w.toJson.compact) :
    v = w := by
  cases v with
  | bool b =>
    cases w with
    | bool c => cases b <;> cases c <;> first | rfl | simp [Value.toJson, Json.compact] at h
    | int i =>
      have hbool : k = .bool := by simpa [admits] using hv
      simp [admits, hbool, holds, bounds?] at hw
    | float x => simp [admits, hk] at hw
    | tuple | array => cases hw
  | int i =>
    cases w with
    | bool b =>
      have hbool : k = .bool := by simpa [admits] using hw
      simp [admits, hbool, holds, bounds?] at hv
    | int j =>
      have heq : i.toInt = j.toInt := Number.toString_int_injective h
      rw [Int64.toInt_inj.1 heq]
    | float x => simp [admits, hk] at hw
    | tuple | array => cases hw
  | float x => simp [admits, hk] at hv
  | tuple | array => cases hv

/-- Whether a type is a floating kind. -/
def FieldType.isFloat (t : FieldType) : Bool := t.kind?.any Kind.isFloat

variable {xs ys : Row} {types : List FieldType}

/-- Keys whose values are written alike have the same text. -/
theorem Row.key_eq_of_texts (h : xs.map Value.text = ys.map Value.text) :
    Row.key xs = Row.key ys := by
  have htexts : ∀ zs : Row, (zs.map Value.toJson).map Json.compact = zs.map Value.text := by
    intro zs
    rw [List.map_map]
    rfl
  rw [Row.key, Row.key, Json.compact, Json.compact, Json.compactItems_eq_map,
    Json.compactItems_eq_map, htexts, htexts, h]

theorem comma_not_mem_text {values : Row} (hatomic : ∀ t ∈ types, t.isAtomic = true)
    (hvalues : Forall₂ (fun t v => admits t v = true) types values) :
    ∀ v ∈ values, ',' ∉ v.text.toList := by
  induction hvalues with
  | nil => simp
  | @cons t v types values hv _ ih =>
    rw [forall_mem_cons] at hatomic ⊢
    refine ⟨?_, ih hatomic.2⟩
    cases t with
    | atomic k => exact Kind.comma_not_mem_compact hv
    | tuple | array => cases hatomic.1

/-- **Keys of atomic values are equal exactly if their values are written alike**, one by one. -/
theorem Row.key_eq_iff_texts (hatomic : ∀ t ∈ types, t.isAtomic = true)
    (hxs : Forall₂ (fun t v => admits t v = true) types xs)
    (hys : Forall₂ (fun t v => admits t v = true) types ys) :
    Row.key xs = Row.key ys ↔ xs.map Value.text = ys.map Value.text := by
  refine ⟨fun h => ?_, Row.key_eq_of_texts⟩
  have hcomma : ∀ zs : Row, Forall₂ (fun t v => admits t v = true) types zs →
      ∀ j ∈ zs.map Value.toJson, ',' ∉ j.compact.toList := by
    intro zs hzs j hj
    obtain ⟨z, hz, rfl⟩ := List.mem_map.1 hj
    exact comma_not_mem_text hatomic hzs z hz
  have htexts := Json.compact_array_injective
    (by rw [List.length_map, List.length_map, ← hxs.length_eq, ← hys.length_eq])
    (hcomma xs hxs) (hcomma ys hys) h
  rwa [List.map_map, List.map_map] at htexts

/-- **Key fields that are not floating are equal if the keys are.** -/
theorem Row.getElem?_eq_of_key
    (hxs : Forall₂ FieldType.Holds types xs) (hys : Forall₂ FieldType.Holds types ys)
    (hatomic : ∀ t ∈ types, t.isAtomic = true) (h : Row.key xs = Row.key ys)
    {p : Nat} {t : FieldType} (ht : types[p]? = some t) (hfloat : t.isFloat = false) :
    xs[p]? = ys[p]? := by
  have htexts := (Row.key_eq_iff_texts hatomic (hxs.imp fun _ _ hv => hv.admits)
    (hys.imp fun _ _ hv => hv.admits)).1 h
  have hlt : p < types.length := (List.getElem?_eq_some_iff.1 ht).1
  have hx := getElem?_eq_getElem (hxs.length_eq ▸ hlt)
  have hy := getElem?_eq_getElem (hys.length_eq ▸ hlt)
  have htext := congrArg (fun texts => texts[p]?) htexts
  simp only [getElem?_map, hx, hy, Option.map_some, Option.some.injEq] at htext
  have hat := hatomic t (mem_of_getElem? ht)
  cases t with
  | atomic k =>
    rw [hx, hy, Kind.eq_of_compact hfloat (forall₂_getElem? hxs ht hx).admits
      (forall₂_getElem? hys ht hy).admits htext]
  | tuple | array => simp [isAtomic, kind?] at hat

end Dataflow
