/-
**Filters change places with projections and pairs.**

A filter behind a projection, a join or a product keeps the rows that it would keep before it, if
every field that its predicate reads is led back to the input field that it was made of.  Of a join,
a key field on the right may stand for the field of the left key at the same place, unless it is
floating: the keys of a pair have equal texts.

Main results:

* `evalTyped_relocate` — predicates have the same value on rows whose fields agree;
* `evalTyped_left`, `evalTyped_right` — a predicate on pairs, told on the left or right rows;
* `Commutes.back`, `Commutes.forth` — **the two orders make the same rows**;
* `commutes_projection`, `commutes_left`, `commutes_right` — filters that can change places;
* `filter_of_projection` — **filtering behind a projection is filtering before it**, failures
  included.
-/

import Dataflow.Proofs.Expr.Remap
import Dataflow.Proofs.Optimization.Rows
import Dataflow.Proofs.Value.Key

namespace Dataflow

open List TupleType

variable {q index : Nat}

/-! ### Predicates over other fields -/

/-- The positions of the fields of a tuple that a predicate reads. -/
def Expr.positions (e : Expr) : List Nat := e.fields.map (·.2)

theorem type?_of_infer {e : Expr} {t : TupleType} {u : FieldType}
    (h : e.infer [t] = .ok u) {r : Nat × Nat} (hr : r ∈ e.fields) :
    r.1 = 0 ∧ ∃ type, t.type? r.2 = some type := by
  obtain ⟨type, htype⟩ := Expr.typeAt_of_infer h r hr
  obtain ⟨arg, index⟩ := r
  cases arg with
  | zero => exact ⟨rfl, type, htype⟩
  | succ arg => simp [Expr.typeAt] at htype

section Remap

variable {f : Nat → Option Nat} {e e' : Expr} {s t : TupleType} {u : FieldType}

theorem relocate_eq_some_iff {r r' : Nat × Nat} :
    (do return (r.1, ← f r.2) : Option (Nat × Nat)) = some r' ↔
      ∃ p, f r.2 = some p ∧ r' = (r.1, p) := by
  simp [Option.bind_eq_some_iff, eq_comm (a := r')]

theorem passes_congr {row row' : Row} (h : e'.evalTyped [s] [row'] = e.evalTyped [t] [row]) :
    passes e' s row' = passes e t row := by
  rw [passes, passes, h]

variable (h : e.remap (fun arg index => return (arg, ← f index)) = some e')
  (hinfer : e.infer [t] = .ok u) (htypes : ∀ index ∈ e.positions, ∀ p, f index = some p →
  t.type? index = s.type? p)

include h in
theorem mem_zip_positions {q : Nat} (hindex : index ∈ e.positions) (hq : f index = some q) :
    (index, q) ∈ e.positions.zip e'.positions := by
  obtain ⟨r, hr, rfl⟩ := List.mem_map.1 hindex
  obtain ⟨i, hi⟩ := mem_iff_getElem?.1 hr
  obtain ⟨r', hi', hrelocated⟩ := exists_of_forall₂ (Expr.fields_remap h) hi
  obtain ⟨q', hq', rfl⟩ := relocate_eq_some_iff.1 hrelocated
  refine mem_iff_getElem?.2 ⟨i, ?_⟩
  rw [getElem?_zip_eq_some]
  refine ⟨by rw [Expr.positions, getElem?_map, hi]; rfl, ?_⟩
  rw [Expr.positions, getElem?_map, hi', Option.map_some, ← hq, hq']

include hinfer htypes

theorem typeAt_relocate :
    ∀ r ∈ e.fields, ∀ r', (do return (r.1, ← f r.2) : Option (Nat × Nat)) = some r' →
      ∃ type, Expr.typeAt [t] r = some type ∧ Expr.typeAt [s] r' = some type := by
  intro r hr r' hr'
  obtain ⟨harg, type, htype⟩ := type?_of_infer hinfer hr
  obtain ⟨p, hp, rfl⟩ := relocate_eq_some_iff.1 hr'
  have hagree := htypes r.2 (List.mem_map_of_mem hr) p hp
  refine ⟨type, ?_, ?_⟩
  · simpa [Expr.typeAt, harg] using htype
  · simpa [Expr.typeAt, harg] using hagree ▸ htype

include h

theorem infer_relocate : e'.infer [s] = e.infer [t] :=
  Expr.infer_remap h (typeAt_relocate hinfer htypes)

/-- **Predicates have the same value on rows whose fields agree.** -/
theorem evalTyped_relocate {out source : Row} (hout : t.Holds out)
    (hvalues : ∀ index ∈ e.positions, ∀ p, f index = some p → out[index]? = source[p]?) :
    e'.evalTyped [s] [source] = e.evalTyped [t] [out] := by
  refine Expr.eval_remap h (typeAt_relocate hinfer htypes) fun r hr r' hr' => ?_
  obtain ⟨harg, type, htype⟩ := type?_of_infer hinfer hr
  obtain ⟨p, hp, rfl⟩ := relocate_eq_some_iff.1 hr'
  obtain ⟨v, hv, -⟩ := hout.get htype
  have hagree := hvalues r.2 (List.mem_map_of_mem hr) p hp
  refine ⟨v, ?_, ?_⟩
  · simpa [Expr.valueAt, harg] using hv
  · simpa [Expr.valueAt, harg] using hagree ▸ hv

end Remap

/-! ### Changing places -/

/-- A filter with predicate `e` behind the operator `p` that can change places with it, to the slot
`slot` and with the predicate `e'` there.  The slot is fed by `source`, and `make` has the rows that
the operator makes, of type `t`, when some rows of `source` are fed. -/
structure Commutes (c : EvaluationContext) (p : Primitive) (slot : Nat) (e e' : Expr)
    (operands : List Stream) (source : Stream) (t : TupleType) (make : Rows → Rows) : Prop where
  infer : e'.infer [source.type] = e.infer [t]
  makes : ∀ rows, rows ⊆ source.rows → ∀ out : Stream,
    evaluation.primitive c p (operands.set slot ⟨source.type, rows⟩) out ↔ out.type = t ∧
    out.rows = make rows
  held : Stream.Held ⟨t, make source.rows⟩
  covers : ∀ out ∈ make source.rows, ∃ row ∈ source.rows, passes e' source.type row = passes e t out
  filters : (make source.rows).filter (fun out => (passes e t out).holds) =
    make (source.rows.filter fun row => (passes e' source.type row).holds)
  exhausts : p.pairKeys? = none → ∀ row ∈ source.rows, ∃ out ∈ make source.rows,
    passes e' source.type row = passes e t out

namespace Commutes

variable {c : EvaluationContext} {p : Primitive} {slot : Nat} {e e' : Expr} {operands : List Stream}
  {source a b out : Stream} {t : TupleType} {make : Rows → Rows}

/-- **What the operator makes of the filtered rows, the filter makes of the rows of the
operator.** -/
theorem back (h : Commutes c p slot e e' operands source t make) (hsource : source.Held)
    (hself : operands.set slot source = operands)
    (ha : evaluation.primitive c (.filter e') [source] a)
    (hout : evaluation.primitive c p (operands.set slot a) out) :
    ∃ b, evaluation.primitive c p operands b ∧ evaluation.primitive c (.filter e) [b] out := by
  obtain ⟨hinfer, htype, hall, hrows⟩ := (evaluation_filter_iff hsource).1 ha
  obtain ⟨atype, arows⟩ := a
  obtain rfl : atype = source.type := htype
  obtain rfl : arows = source.rows.filter fun row => (passes e' source.type row).holds := hrows
  obtain ⟨houttype, houtrows⟩ := (h.makes _ filter_sublist.subset out).1 hout
  refine ⟨⟨t, make source.rows⟩, ?_, ?_⟩
  · have hmake := (h.makes source.rows (Subset.refl _) ⟨t, make source.rows⟩).2 ⟨rfl, rfl⟩
    rwa [hself] at hmake
  · refine (evaluation_filter_iff h.held).2 ⟨h.infer ▸ hinfer, houttype, fun row hrow => ?_, ?_⟩
    · obtain ⟨src, hsrc, hpasses⟩ := h.covers row hrow
      exact hpasses ▸ hall src hsrc
    · rw [houtrows, ← h.filters]

/-- **What the filter makes of the rows of the operator, the operator makes of the filtered rows**,
if the predicate decides on all rows before a join or product. -/
theorem forth (h : Commutes c p slot e e' operands source t make) (hsource : source.Held)
    (hself : operands.set slot source = operands) (hb : evaluation.primitive c p operands b)
    (hout : evaluation.primitive c (.filter e) [b] out)
    (hdecides : ∀ keys, p.pairKeys? = some keys → ∀ row ∈ source.rows, ∃ d,
      passes e' source.type row = .ok d) :
    ∃ a, evaluation.primitive c (.filter e') [source] a ∧
      evaluation.primitive c p (operands.set slot a) out := by
  have hmake := (h.makes source.rows (Subset.refl _) b).1 (by rw [hself]; exact hb)
  obtain rfl : b = ⟨t, make source.rows⟩ := by rw [← hmake.1, ← hmake.2]
  obtain ⟨hinfer, htype, hall, hrows⟩ := (evaluation_filter_iff h.held).1 hout
  have hall' : ∀ row ∈ source.rows, ∃ d, passes e' source.type row = .ok d := by
    intro row hrow
    cases hp : p.pairKeys? with
    | some keys => exact hdecides keys hp row hrow
    | none =>
      -- Every row of the source shows up behind a projection, so it was decided there.
      obtain ⟨out, hout, hpasses⟩ := h.exhausts hp row hrow
      exact hpasses ▸ hall out hout
  refine ⟨⟨source.type, source.rows.filter fun row => (passes e' source.type row).holds⟩, ?_, ?_⟩
  · exact (evaluation_filter_iff hsource).2 ⟨h.infer.trans hinfer, rfl, hall', rfl⟩
  · refine (h.makes _ filter_sublist.subset out).2 ⟨htype, ?_⟩
    rw [hrows, ← h.filters]

end Commutes

/-! ### Filters that can change places -/

variable {c : EvaluationContext} {f : Nat → Option Nat} {e e' : Expr}
  {u : FieldType} {t : TupleType}

section Projections

variable {s : TupleType} {positions : List Nat}

/-- A predicate on the selected fields decides on a row as it does on the fields that were
selected. -/
theorem passes_select (ht : s.select positions = .ok t)
    (h : e.remap (fun arg index => return (arg, ← positions[index]?)) = some e')
    (hinfer : e.infer [t] = .ok u) {row : Row} (hrow : s.Holds row) :
    passes e' s row = passes e t (row.select positions) := by
  refine passes_congr (evalTyped_relocate h hinfer (fun index _ p hp => type?_of_select ht hp)
    (holds_select ht hrow) fun index _ p hp => ?_)
  obtain ⟨_, v, -, -, hv, hv'⟩ := getElem?_select ht hrow hp
  rw [hv, hv']

theorem commutes_projection {source : Stream} (hsource : source.Held)
    (ht : source.type.select positions = .ok t)
    (h : e.remap (fun arg index => return (arg, ← positions[index]?)) = some e')
    (hinfer : e.infer [t] = .ok u) :
    Commutes c (.projection positions) 0 e e' [source]
      source t (List.map (Row.select positions)) := by
  have hpasses : ∀ row ∈ source.rows, passes e' source.type row =
    passes e t (row.select positions) :=
    fun row hrow => passes_select ht h hinfer (hsource row hrow)
  refine ⟨infer_relocate h hinfer fun index _ p hp => type?_of_select ht hp,
    fun rows hrows out => ?_, ?_, ?_, ?_, fun _ row hrow => ?_⟩
  · rw [set_cons_zero, evaluation_projection_iff (hsource.mono hrows), ht,
      Except.ok.injEq, eq_comm (a := t)]
  · exact hsource.select ht
  · intro out hout
    obtain ⟨row, hrow, rfl⟩ := List.mem_map.1 hout
    exact ⟨row, hrow, hpasses row hrow⟩
  · rw [List.filter_map]
    refine congrArg _ (filter_congr fun row hrow => ?_)
    rw [Function.comp_apply, hpasses row hrow]
  · exact ⟨_, List.mem_map_of_mem hrow, hpasses row hrow⟩

/-- A predicate that has a type over the selected fields reads none but these. -/
theorem exists_remap_of_select (ht : s.select positions = .ok t) (hinfer : e.infer [t] = .ok u) :
    ∃ e', e.remap (fun arg index => return (arg, ← positions[index]?)) = some e' := by
  refine Expr.exists_remap fun r hr => ?_
  obtain ⟨-, type, htype⟩ := type?_of_infer hinfer hr
  obtain ⟨types, htypes, rfl⟩ := select_eq_ok_iff.1 ht
  rw [type?_eq_getElem?, types_positional] at htype
  have hlt : r.2 < positions.length := htypes.length_eq ▸ (List.getElem?_eq_some_iff.1 htype).1
  rw [getElem?_eq_getElem hlt]
  rfl

/-- **Filtering behind a projection is filtering before it**, failures included: a predicate on the
selected fields reads fields that there are before the projection, has the same type there, and on
all rows that are admitted by their type and left alone by storing, filtering the selected and
stored fields has the outcome of selecting fields of the filtered rows. -/
theorem filter_of_projection {rows : Rows} (ht : s.select positions = .ok t)
    (hinfer : e.infer [t] = .ok (.atomic .bool))
    (hrows : ∀ row ∈ rows, s.admits row = true ∧ s.store row = row) :
    ∃ e', e.remap (fun arg index => return (arg, ← positions[index]?)) = some e' ∧
      e'.infer [s] = .ok (.atomic .bool) ∧
      (do
        let selected ← rows.mapM (projectRow positions)
        filterRows e t (selected.map t.store)) =
      (do
        let kept ← filterRows e' s rows
        kept.mapM (projectRow positions)) := by
  obtain ⟨e', he'⟩ := exists_remap_of_select ht hinfer
  have hheld : ∀ row ∈ rows, s.Holds row := fun row hrow => holds_iff.2 (hrows row hrow)
  refine ⟨e', he', ?_, ?_⟩
  · rw [infer_relocate he' hinfer fun index _ p hp => type?_of_select ht hp, hinfer]
  · have hstore : (rows.map (Row.select positions)).map t.store = rows.map (Row.select positions) :=
      map_store_eq_self (Stream.Held.select (s := ⟨s, rows⟩) hheld ht)
    rw [mapM_projectRow ht hheld, Outcome.ok_bind, hstore, filterRows,
      Outcome.filterM_map fun row hrow =>
      (passes_select ht he' hinfer (hheld row hrow)).symm, ← filterRows]
    -- What the filter kept are some of the rows, so their fields can be selected.
    cases hkept : filterRows e' s rows with
    | error failure => rfl
    | ok kept =>
      obtain ⟨-, rfl⟩ := Outcome.filterM_eq_ok_iff.1 hkept
      exact (mapM_projectRow ht fun row hrow => hheld row (mem_of_mem_filter hrow)).symm

/-- A number, a byte and another number. -/
def sharedType : TupleType := .positional [.atomic .int64, .atomic .int8, .atomic .int64]

/-- Two rows of this type; the byte of the second one may be zero. -/
def sharedRows (byte : Int64) : Rows := [[.int 7, .int 2, .int 0], [.int 1, .int byte, .int 5]]

/-- Whether the second field, divided by the first one, is above the third one. -/
def shareAbove : Expr := .binary .gt (.binary .div (.field 0 1) (.field 0 0)) (.field 0 2)

/-- The byte, the number and the byte again, filtered: one row is kept, or a divisor is zero. -/
theorem shareAbove_filter : ∃ t e', sharedType.select [1, 0, 1] = .ok t ∧
    shareAbove.remap (fun arg index => return (arg, ← [1, 0, 1][index]?)) = some e' ∧
    (∀ byte ∈ [1, 0],
      (do
        let selected ← (sharedRows byte).mapM (projectRow [1, 0, 1])
        filterRows shareAbove t (selected.map t.store)) =
      (do
        let kept ← filterRows e' sharedType (sharedRows byte)
        kept.mapM (projectRow [1, 0, 1]))) ∧
    filterRows e' sharedType (sharedRows 1) = .ok [[.int 7, .int 2, .int 0]] ∧
    filterRows e' sharedType (sharedRows 0) = .error (.execution .divisionByZero) := by
  have hremap : shareAbove.remap (fun arg index => return (arg, ← [1, 0, 1][index]?)) =
      some (.binary .gt (.binary .div (.field 0 0) (.field 0 1)) (.field 0 1)) := by cbv
  have ht : sharedType.select [1, 0, 1] =
      .ok (.positional [.atomic .int8, .atomic .int64, .atomic .int8]) := by
    cbv
  refine ⟨_, _, ht, hremap, fun byte hbyte => ?_, by cbv, by cbv⟩
  have hheld : ∀ row ∈ sharedRows byte, sharedType.admits row = true ∧
      sharedType.store row = row := by
    simp only [mem_cons, not_mem_nil, or_false] at hbyte
    rcases hbyte with rfl | rfl <;> simp only [sharedRows, forall_mem_cons] <;>
      exact ⟨⟨by cbv, by cbv⟩, ⟨by cbv, by cbv⟩, forall_mem_nil _⟩
  obtain ⟨e', he', -, heq⟩ := filter_of_projection (e := shareAbove) ht (by cbv) hheld
  obtain rfl := Option.some.inj (hremap.symm.trans he')
  exact heq

end Projections

/-! ### Predicates on pairs -/

section Pairs

theorem eq_of_checkKeys {k : Nat} {ls rs : List FieldType} (hlength : ls.length = rs.length)
    (h : checkKeys k ls rs = .ok ()) : ls = rs ∧ ∀ type ∈ ls, type.isAtomic = true := by
  induction ls generalizing k rs with
  | nil => exact ⟨(List.length_eq_zero_iff.1 hlength.symm).symm, by simp⟩
  | cons l ls ih =>
    cases rs with
    | nil => cases hlength
    | cons r rs =>
      simp only [checkKeys, Outcome.guard_eq_ok_iff, not_not] at h
      obtain ⟨rfl, hatomic, h⟩ := h
      obtain ⟨rfl, hall⟩ := ih (by simpa using hlength) h
      exact ⟨rfl, forall_mem_cons.2 ⟨by simpa using hatomic, hall⟩⟩

variable {p : Primitive} {keys : Nat} {left right : TupleType}
  {bound : Option (List TupleType)} {l r : Row} (hp : p.pairKeys? = some keys)
  (ht : p.outputType [left, right] bound = .ok t)
  (h : e.remap (fun arg index => return (arg, ← f index)) = some e') (hinfer : e.infer [t] = .ok u)
  (hl : left.Holds l) (hr : right.Holds r)
include hp ht

theorem type?_left (hlt : index < left.length) : t.type? index = left.type? index := by
  obtain ⟨-, -, hpair⟩ := types_of_pairKeys hp ht
  rw [type?_eq_getElem?, type?_eq_getElem?, hpair, getElem?_append_left]
  rwa [length_types]

theorem type?_right (hle : keys ≤ q) : t.type? (left.length + (q - keys)) = right.type? q := by
  obtain ⟨-, -, hpair⟩ := types_of_pairKeys hp ht
  rw [type?_eq_getElem?, type?_eq_getElem?, hpair, getElem?_append_right (by
    rw [length_types]; omega), length_types, getElem?_drop]
  congr 1
  omega

theorem keyTypes_of_pairKeys :
    left.types.take keys = right.types.take keys ∧ ∀ type ∈ left.types.take keys,
      type.isAtomic = true := by
  obtain ⟨hleft, hright, -⟩ := types_of_pairKeys hp ht
  cases Primitive.outputType_eq_ok_iff.1 ht with
  | join _ _ agree =>
    cases hp
    refine eq_of_checkKeys ?_ agree
    rw [length_take, length_take, length_types, length_types]
    omega
  | cartesian =>
    cases hp
    simp

theorem type?_key (hlt : q < keys) : t.type? q = right.type? q := by
  obtain ⟨hkeys, -, -⟩ := types_of_pairKeys hp ht
  rw [type?_left hp ht (by omega), type?_eq_getElem?, type?_eq_getElem?, ← getElem?_take_of_lt hlt,
    (keyTypes_of_pairKeys hp ht).1, getElem?_take_of_lt hlt]

include h hinfer

/-- A predicate on pairs that reads fields of the left rows only, told on the left rows. -/
theorem evalTyped_left (hf : ∀ index ∈ e.positions, ∀ q, f index = some q → q = index ∧
      index < left.length)
    (hl : left.Holds l) (hr : right.Holds r) :
      e'.evalTyped [left] [l] = e.evalTyped [t] [l ++ r.drop keys] := by
  refine evalTyped_relocate h hinfer (fun index hindex q hq => ?_) (holds_pair hp ht hl hr)
    fun index hindex q hq => ?_
  · obtain ⟨rfl, hlt⟩ := hf index hindex q hq
    exact type?_left hp ht hlt
  · obtain ⟨rfl, hlt⟩ := hf index hindex q hq
    exact getElem?_append_left (by rwa [hl.length_eq])

include hl hr

/-- A predicate on pairs that reads fields of the right rows only, told on the right rows: it may
read a key there, if the field of the pair that it stands for has the type and the value of that
key. -/
theorem evalTyped_right (hf : ∀ index ∈ e.positions, ∀ q, f index = some q →
      (keys ≤ q ∧ index = left.length + (q - keys)) ∨
      (t.type? index = right.type? q ∧ (l ++ r.drop keys)[index]? = r[q]?)) :
    e'.evalTyped [right] [r] = e.evalTyped [t] [l ++ r.drop keys] := by
  refine evalTyped_relocate h hinfer (fun index hindex q hq => ?_) (holds_pair hp ht hl hr)
    fun index hindex q hq => ?_
  · rcases hf index hindex q hq with ⟨hle, rfl⟩ | ⟨htype, -⟩
    · exact type?_right hp ht hle
    · exact htype
  · rcases hf index hindex q hq with ⟨hle, rfl⟩ | ⟨-, hvalue⟩
    · have hlength := hl.length_eq
      rw [getElem?_append_right (by omega), getElem?_drop]
      congr 1
      omega
    · exact hvalue

omit h hinfer

/-- The key fields of the rows of a pair are equal, if they are not floating. -/
theorem getElem?_eq_of_matches (hmatch : p.matches l r = true) (hq : q < keys) {type : FieldType}
    (htype : left.types[q]? = some type) (hfloat : type.isFloat = false) : l[q]? = r[q]? := by
  obtain ⟨hkeys, hatomic⟩ := keyTypes_of_pairKeys hp ht
  have hkey : Row.key (l.take keys) = Row.key (r.take keys) := by
    cases p with
    | join keys' =>
      obtain rfl := Option.some.inj hp
      exact (beq_iff_eq.1 hmatch).symm
    | cartesian =>
      obtain rfl := Option.some.inj hp
      cases hq
    | _ => cases hp
  have heq := Row.getElem?_eq_of_key (forall₂_take keys hl)
    (hkeys ▸ forall₂_take keys hr) hatomic hkey (by rw [getElem?_take_of_lt hq, htype]) hfloat
  rwa [getElem?_take_of_lt hq, getElem?_take_of_lt hq] at heq

/-- A left key that is not floating has the type and the value of the right key at the same
place. -/
theorem key_of_matches (hmatch : p.matches l r = true)
    (hq : q < keys) (hfloat : ∀ type, t.type? q = some type → type.isFloat = false) :
    t.type? q = right.type? q ∧ (l ++ r.drop keys)[q]? = r[q]? := by
  obtain ⟨hkeys, -, -⟩ := types_of_pairKeys hp ht
  have hlt : q < left.types.length := by
    rw [length_types]
    omega
  have htype := getElem?_eq_getElem hlt
  refine ⟨type?_key hp ht hq, ?_⟩
  rw [getElem?_append_left (by rw [hl.length_eq]; omega)]
  refine getElem?_eq_of_matches hp ht hl hr hmatch hq htype (hfloat _ ?_)
  rw [type?_left hp ht (by omega), type?_eq_getElem?, htype]

end Pairs

/-! ### Filters of pairs that can change places -/

section Filters

variable {p : Primitive} {keys : Nat} {left right : Stream}
  (hp : p.pairKeys? = some keys) (hleft : left.Held) (hright : right.Held)
  (ht : p.outputType [left.type, right.type] c.bound = .ok t)
  (h : e.remap (fun arg index => return (arg, ← f index)) = some e') (hinfer : e.infer [t] = .ok u)
include hp hleft hright ht

theorem holds_pairRows : ∀ out ∈ pairRows p keys left.rows right.rows, t.Holds out := by
  intro out hout
  obtain ⟨l, hl, r, hr, -, rfl⟩ := mem_pairRows.1 hout
  exact holds_pair hp ht (hleft l hl) (hright r hr)

include h hinfer

/-- A filter of pairs that reads fields of the left tuples only can read them there. -/
theorem commutes_left (hf : ∀ index ∈ e.positions, ∀ q, f index = some q → q = index ∧
      index < left.type.length) :
    Commutes c p 0 e e' [left, right] left t fun rows => pairRows p keys rows right.rows := by
  have htypes : ∀ index ∈ e.positions, ∀ q, f index = some q →
      t.type? index = left.type.type? q := by
    intro index hindex q hq
    obtain ⟨rfl, hlt⟩ := hf index hindex q hq
    exact type?_left hp ht hlt
  have hpasses : ∀ l ∈ left.rows, ∀ r ∈ right.rows,
      passes e' left.type l = passes e t (l ++ r.drop keys) := fun l hl r hr =>
    passes_congr (evalTyped_left hp ht h hinfer hf (hleft l hl) (hright r hr))
  refine ⟨infer_relocate h hinfer htypes, fun rows hrows out => ?_,
    holds_pairRows hp hleft hright ht, ?_, ?_, fun hnone => ?_⟩
  · rw [set_cons_zero, evaluation_pairs_iff hp (hleft.mono hrows) hright]
    simp only [ht, Except.ok.injEq, eq_comm (a := t)]
  · intro out hout
    obtain ⟨l, hl, r, hr, -, rfl⟩ := mem_pairRows.1 hout
    exact ⟨l, hl, hpasses l hl r hr⟩
  · exact filter_pairRows_left fun l hl r hr _ => by rw [hpasses l hl r hr]
  · rw [hp] at hnone
    cases hnone

/-- A filter of pairs that reads fields of the right tuples only can read them there, also keys in
the place of left keys that are not floating. -/
theorem commutes_right (hf : ∀ index ∈ e.positions, ∀ q, f index = some q →
      (keys ≤ q ∧ index = left.type.length + (q - keys)) ∨
        (q < keys ∧ index = q ∧ ∀ type, t.type? index = some type → type.isFloat = false)) :
    Commutes c p 1 e e' [left, right] right t fun rows => pairRows p keys left.rows rows := by
  have htypes : ∀ index ∈ e.positions, ∀ q, f index = some q →
      t.type? index = right.type.type? q := by
    intro index hindex q hq
    rcases hf index hindex q hq with ⟨hle, rfl⟩ | ⟨hlt, rfl, -⟩
    · exact type?_right hp ht hle
    · exact type?_key hp ht hlt
  have hpasses : ∀ l ∈ left.rows, ∀ r ∈ right.rows, p.matches l r = true →
      passes e' right.type r = passes e t (l ++ r.drop keys) := by
    intro l hl r hr hmatch
    refine passes_congr (evalTyped_right hp ht h hinfer (hleft l hl) (hright r hr)
      fun index hindex q hq => ?_)
    rcases hf index hindex q hq with hbehind | ⟨hlt, rfl, hfloat⟩
    · exact .inl hbehind
    · exact .inr (key_of_matches hp ht (hleft l hl) (hright r hr) hmatch hlt hfloat)
  refine ⟨infer_relocate h hinfer htypes, fun rows hrows out => ?_,
    holds_pairRows hp hleft hright ht, ?_, ?_, fun hnone => ?_⟩
  · rw [set_cons_succ, set_cons_zero, evaluation_pairs_iff hp hleft (hright.mono hrows)]
    simp only [ht, Except.ok.injEq, eq_comm (a := t)]
  · intro out hout
    obtain ⟨l, hl, r, hr, hmatch, rfl⟩ := mem_pairRows.1 hout
    exact ⟨r, hr, hpasses l hl r hr hmatch⟩
  · exact filter_pairRows_right fun l hl r hr hmatch => by rw [hpasses l hl r hr hmatch]
  · rw [hp] at hnone
    cases hnone

end Filters

end Dataflow
