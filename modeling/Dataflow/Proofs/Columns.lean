/-
**Columns tell types.**

A field that passes an input field on carries its column.  It has the type of that field, except
behind a map that returns a field alone: if the field is a tuple, its components take its place, and
the first of them carries its column.  What all fields of one column have in common is the atomic
type that a field starts with.

Main definitions:

* `FieldType.leading?` — the atomic type that a field starts with;
* `Primitive.Passes` — the types of a field and of the field that an operator makes of it by passing
  it on;
* `Field.Agrees` — a field whose column was given out, for fields that start with one atomic type;
* `Graph.Coherent` — the graphs whose columns tell what their fields start with.

Main results:

* `Primitive.passes_of_origin` — a field has the type of the field that it passes on, but for spread
  tuples;
* `Primitive.Passes.leading` — so it starts with what that field starts with;
* `Assignment.exists_agrees` — the fields that are written down agree, if the fields before them do;
* `Graph.coherent_of_annotateWith` — **annotation keeps graphs coherent**.
-/

import Dataflow.Proofs.Optimization.Rows

namespace Dataflow

open List Option Outcome TupleType Operator

/-! ### What a field starts with -/

/-- The atomic type that a field starts with, if there is one: that of an atomic field, or that of
the first component of a tuple. -/
def FieldType.leading? : FieldType → Option Kind
  | .atomic kind => some kind
  | .tuple (⟨_, type⟩ :: _) => type.leading?
  | .tuple [] => none
  | .array _ => none

theorem FieldType.leading?_row {type first : FieldType} (h : type.row.type? 0 = some first) :
    type.leading? = first.leading? := by
  cases type with
  | atomic | array =>
    cases h
    rfl
  | tuple fields =>
    cases fields with
    | nil => cases h
    | cons field fields =>
      obtain ⟨name, type⟩ := field
      cases h
      rw [leading?]

namespace Primitive

variable {p : Primitive} {inputs : List TupleType} {bound : Option (List TupleType)} {t : TupleType}

/-- The type of a field that an operator passes on, and the type of the field that it makes of it:
they are the same, except for a map that returns a field alone, where the first component of a tuple
takes its place. -/
def Passes (p : Primitive) (source type : FieldType) : Prop :=
  source = type ∨ (∃ index, p = .map (.field 0 index)) ∧ source.row.type? 0 = some type

theorem Passes.leading {source type : FieldType} (h : p.Passes source type) :
    source.leading? = type.leading? := by
  rcases h with rfl | ⟨-, hrow⟩
  · rfl
  · exact FieldType.leading?_row hrow

variable {type : FieldType} {n k i j : Nat} {input : TupleType} {function : Expr}

theorem type?_of_pairKeys {keys i j : Nat} {left right : TupleType} (hp : p.pairKeys? = some keys)
    (h : p.outputType [left, right] bound = .ok t)
    (hij : (if k < left.length then (0, k) else (1, k - left.length + keys)) = (i, j))
    (htype : t.type? k = some type) : ∃ input, [left, right][i]? = some input ∧
      input.type? j = some type := by
  obtain ⟨-, -, htypes⟩ := types_of_pairKeys hp h
  rw [type?_eq_getElem?, htypes] at htype
  by_cases hlt : k < left.length
  · rw [if_pos hlt] at hij
    cases hij
    rw [getElem?_append_left (by rwa [length_types])] at htype
    exact ⟨left, rfl, by rw [type?_eq_getElem?, htype]⟩
  · rw [if_neg hlt] at hij
    cases hij
    rw [getElem?_append_right (by rw [length_types]; omega), getElem?_drop,
      length_types, Nat.add_comm] at htype
    exact ⟨right, rfl, by rw [type?_eq_getElem?, htype]⟩

/-- A map passes on the field that it returns alone, or the fields that stand in the tuple that it
returns. -/
theorem function_of_origin? (h : (primitive (.map function)).origin? n k = some (i, j)) :
    i = 0 ∧ ((function = .field 0 j ∧ k = 0) ∨ ∃ items, function = .tuple items ∧
      items[k]? = some (.field 0 j)) := by
  cases function with
  | field arg index =>
    cases arg with
    | succ arg => cases h
    | zero =>
      simp only [origin?] at h
      split at h
      · next hk =>
        cases h
        exact ⟨rfl, .inl ⟨rfl, hk⟩⟩
      · cases h
  | tuple items =>
    simp only [origin?] at h
    split at h
    · next index hitem =>
      cases h
      exact ⟨rfl, .inr ⟨items, rfl, hitem⟩⟩
    · cases h
  | _ => cases h

/-- A function that selects fields makes fields of the types of these, or spreads a tuple. -/
theorem passes_of_map {result type : FieldType} (hresult : function.infer [input] = .ok result)
    (horigin : (primitive (.map function)).origin? n k = some (i, j))
    (htype : result.row.type? k = some type) :
    i = 0 ∧ ∃ source, input.type? j = some source ∧ (map function).Passes source type := by
  obtain ⟨rfl, ⟨rfl, rfl⟩ | ⟨items, rfl, hitem⟩⟩ := function_of_origin? horigin
  · rw [Expr.infer, ofOption_eq_ok_iff] at hresult
    exact ⟨rfl, result, hresult, .inr ⟨⟨_, rfl⟩, htype⟩⟩
  · simp only [Expr.infer, Expr.inferAll_eq_mapM, bind_eq_ok_iff, mapM_eq_ok_iff] at hresult
    obtain ⟨types, htypes, hresult⟩ := hresult
    cases hresult
    rw [type?_eq_getElem?, FieldType.row, types_positional] at htype
    have hinfer := forall₂_getElem? htypes hitem htype
    rw [Expr.infer, ofOption_eq_ok_iff] at hinfer
    exact ⟨rfl, type, hinfer, .inl rfl⟩

/-- An operator with one input passes fields of that input on. -/
theorem passes_of_hasType (h : HasType bound p [input] t)
    (horigin : (primitive p).origin? n k = some (i, j)) (htype : t.type? k = some type) :
    i = 0 ∧ ∃ source, input.type? j = some source ∧ p.Passes source type := by
  cases h with
  | filter | ensureSingleTuple =>
    cases horigin
    exact ⟨rfl, type, htype, .inl rfl⟩
  | projection selects =>
    obtain ⟨position, hposition, hij⟩ := map_eq_some_iff.1 horigin
    cases hij
    rw [type?_eq_getElem?, types_positional] at htype
    exact ⟨rfl, type, forall₂_getElem? selects hposition htype, .inl rfl⟩
  | map infers => exact passes_of_map infers horigin htype
  | partition =>
    simp only [origin?] at horigin
    split at horigin
    · cases horigin
    · next hk =>
      cases horigin
      rw [type?_eq_getElem?, types_concat, getElem?_append_right (by
        rw [scalar, types_positional]
        exact Nat.pos_of_ne_zero hk)] at htype
      rw [scalar, types_positional] at htype
      exact ⟨rfl, type, by rw [type?_eq_getElem?]; exact htype, .inl rfl⟩
  | groupBy hkeys =>
    obtain ⟨position, hposition, hij⟩ := map_eq_some_iff.1 horigin
    cases hij
    have hlt := hkeys.length_eq ▸ (List.getElem?_eq_some_iff.1 hposition).1
    rw [type?_eq_getElem?, types_positional, getElem?_append_left hlt] at htype
    exact ⟨rfl, type, (forall₂_getElem? hkeys hposition htype).1, .inl rfl⟩
  | reduceByKey =>
    simp only [origin?] at horigin
    split at horigin
    · next hk =>
      subst hk
      cases horigin
      exact ⟨rfl, type, htype, .inl rfl⟩
    · cases horigin
  | rowScan | reduce | materializeRowVector => cases horigin

/-- **A field has the type of the field that it passes on**, unless a tuple is spread. -/
theorem passes_of_origin {i j : Nat} (h : p.outputType inputs bound = .ok t)
    (horigin : (primitive p).origin? (inputs.head?.getD []).length k = some (i, j))
    (htype : t.type? k = some type) :
    ∃ input source, inputs[i]? = some input ∧ input.type? j = some source ∧
      p.Passes source type := by
  by_cases hinputs : p.inputs = 1
  · obtain ⟨input, rfl, hinput⟩ := exists_input h hinputs
    obtain ⟨rfl, source, hsource, hpasses⟩ := passes_of_hasType hinput horigin htype
    exact ⟨input, source, rfl, hsource, hpasses⟩
  · -- The operators with two inputs make pairs, and those without inputs pass nothing on.
    obtain ⟨keys, hp, harity, hij⟩ : ∃ keys, p.pairKeys? = some keys ∧ p.inputs = 2 ∧
        (if k < (inputs.head?.getD []).length then (0, k) else (1,
        k - (inputs.head?.getD []).length + keys)) =
          (i, j) := by
      cases p with
      | join keys => exact ⟨keys, rfl, rfl, some.inj horigin⟩
      | cartesian => exact ⟨0, rfl, rfl, some.inj horigin⟩
      | range | constantTuple | parameterLookup => cases horigin
      | _ => exact absurd rfl hinputs
    obtain ⟨left, right, rfl⟩ := length_eq_two.1 ((outputType_eq_ok_iff.1 h).length_eq.trans harity)
    obtain ⟨input, hinput, hsource⟩ := type?_of_pairKeys hp h hij htype
    exact ⟨input, type, hinput, hsource, .inl rfl⟩

theorem passes_of_source? {inputs : List (List Field)} {source : Field}
    (h : p.outputType (inputs.map (List.map Field.named)) bound = .ok t)
    (hsource : (primitive p).source? inputs k = some source)
    (htype : t.type? k = some type) :
    p.Passes source.type type := by
  simp only [source?, bind_eq_bind, bind_eq_some_iff, filter_eq_some_iff] at hsource
  obtain ⟨⟨i, j⟩, horigin, ⟨fields, hfields, hfield⟩, -⟩ := hsource
  have hhead : (inputs.head?.getD []).length =
      ((inputs.map (List.map Field.named)).head?.getD []).length := by
    cases inputs <;> simp
  rw [hhead] at horigin
  obtain ⟨input, found, hinput, hfound, hpasses⟩ := passes_of_origin h horigin htype
  rw [getElem?_map, hfields, map_some, some.injEq] at hinput
  subst hinput
  rw [type?, getElem?_map, hfield, map_some, map_some, some.injEq] at hfound
  subst hfound
  exact hpasses

end Primitive

/-! ### Fields of one column -/

/-- A field whose column, if it has one, is one of the first `n`, and tells what the field starts
with. -/
def Field.Agrees (kinds : Column → Option Kind) (n : Nat) (f : Field) : Prop :=
  ∀ c, f.column = some c → c < n ∧ f.type.leading? = kinds c

theorem Field.Agrees.mono {kinds kinds' : Column → Option Kind} {n n' : Nat} {f : Field}
    (hf : f.Agrees kinds n) (hn : n ≤ n') (hkinds : ∀ c < n, kinds' c = kinds c) :
    f.Agrees kinds' n' := by
  intro c hc
  obtain ⟨hlt, hleading⟩ := hf c hc
  exact ⟨Nat.lt_of_lt_of_le hlt hn, hleading.trans (hkinds c hlt).symm⟩

namespace Assignment

variable {op : Operator} {inputs : List (List Field)} {previous fields : List Field}
  {kinds : Column → Option Kind} {a : Assignment}

/-- One more field that is written down agrees, if what it passes on and what it was before do: a
new column starts with what the field starts with. -/
theorem exists_agrees_extend {field : Field} (ha : ∀ f ∈ a.fields, f.Agrees kinds a.allocated)
    (hprevious : ∀ f ∈ previous, f.Agrees kinds a.allocated)
    (hsource : ∀ s, op.source? inputs field.position = some s →
      s.Agrees kinds a.allocated ∧ s.type.leading? = field.type.leading?) :
    ∃ kinds', (∀ c < a.allocated, kinds' c = kinds c) ∧
      a.allocated ≤ (extend op inputs previous a field).allocated ∧
      ∀ f ∈ (extend op inputs previous a field).fields,
        f.Agrees kinds' (extend op inputs previous a field).allocated := by
  cases hs : op.source? inputs field.position with
  | some s =>
    obtain ⟨hagrees, hleading⟩ := hsource s hs
    simp only [extend, hs]
    refine ⟨kinds, fun _ _ => rfl, Nat.le_refl _, fun f hf => ?_⟩
    rcases mem_append.1 hf with hf | hf
    · exact ha f hf
    · rw [mem_singleton.1 hf]
      intro c hc
      exact ⟨(hagrees c hc).1, hleading ▸ (hagrees c hc).2⟩
  | none =>
    simp only [extend, hs]
    cases hold : (previous[field.position]?.filter (·.type = field.type)).bind (·.column) with
    | some column =>
      -- The field had a column before, as a field of the same type.
      obtain ⟨old, hfilter, hcolumn⟩ := bind_eq_some_iff.1 hold
      obtain ⟨hget, htype⟩ := filter_eq_some_iff.1 hfilter
      have hagrees := hprevious old (mem_of_getElem? hget) column hcolumn
      refine ⟨kinds, fun _ _ => rfl, Nat.le_refl _, fun f hf => ?_⟩
      rcases mem_append.1 hf with hf | hf
      · exact ha f hf
      · rw [mem_singleton.1 hf]
        rintro c ⟨⟩
        exact ⟨hagrees.1, of_decide_eq_true htype ▸ hagrees.2⟩
    | none =>
      refine ⟨Function.update kinds a.allocated field.type.leading?, fun c hc => ?_,
        Nat.le_succ _, fun f hf => ?_⟩
      · exact Function.update_of_ne (Nat.ne_of_lt hc) _ _
      · rcases mem_append.1 hf with hf | hf
        · exact (ha f hf).mono (Nat.le_succ _) fun c hc =>
            Function.update_of_ne (Nat.ne_of_lt hc) _ _
        · rw [mem_singleton.1 hf]
          rintro c ⟨⟩
          exact ⟨Nat.lt_succ_self _, by rw [getD_none, Function.update_self]⟩

/-- **The fields that are written down agree**, if the fields that they pass on and those from
before do. -/
theorem exists_agrees (ha : ∀ f ∈ a.fields, f.Agrees kinds a.allocated)
    (hprevious : ∀ f ∈ previous, f.Agrees kinds a.allocated)
    (hsource : ∀ field ∈ fields, ∀ s, op.source? inputs field.position = some s →
      s.Agrees kinds a.allocated ∧ s.type.leading? = field.type.leading?) :
    ∃ kinds', (∀ c < a.allocated, kinds' c = kinds c) ∧
      a.allocated ≤ (fields.foldl (extend op inputs previous) a).allocated ∧
      ∀ f ∈ (fields.foldl (extend op inputs previous) a).fields,
        f.Agrees kinds' (fields.foldl (extend op inputs previous) a).allocated := by
  induction fields generalizing a kinds with
  | nil => exact ⟨kinds, fun _ _ => rfl, Nat.le_refl _, ha⟩
  | cons field fields ih =>
    obtain ⟨kinds', hkinds', hle, hfields⟩ :=
      exists_agrees_extend ha hprevious (hsource field mem_cons_self)
    obtain ⟨kinds'', hkinds'', hle', hfields'⟩ :=
      ih hfields (fun f hf => (hprevious f hf).mono hle hkinds') (fun field hfield s hs => by
        obtain ⟨hagrees, hleading⟩ := hsource field (mem_cons_of_mem _ hfield) s hs
        exact ⟨hagrees.mono hle hkinds', hleading⟩)
    refine ⟨kinds'', fun c hc => ?_, Nat.le_trans hle hle', hfields'⟩
    rw [hkinds'' c (Nat.lt_of_lt_of_le hc hle), hkinds' c hc]

end Assignment

namespace Graph

open GraphTypes

variable {g g' : Dag} {id : Nat} {bound : Option (List TupleType)} {types : GraphTypes}

/-! ### Coherent graphs -/

/-- The columns of a graph that were given out tell what the fields that carry them start with. -/
def Coherent (g : Dag) : Prop :=
  ∃ kinds : Column → Option Kind, ∀ id, ∀ f ∈ g.fieldsAt id, f.Agrees kinds g.allocated

theorem Coherent.of_fields (hg : g.Coherent)
    (hfields : ∀ id, ∀ f ∈ g'.fieldsAt id, f ∈ g.fieldsAt id)
    (hallocated : g'.allocated = g.allocated) : g'.Coherent := by
  obtain ⟨kinds, hkinds⟩ := hg
  exact ⟨kinds, fun id f hf => hallocated ▸ hkinds id f (hfields id f hf)⟩

theorem exists_producer_of_source? {op : Operator} {s : Field}
    (hs : op.source? (g.inputFields id) k = some s) : ∃ q ∈ g.producers id, s ∈ g.fieldsAt q := by
  simp only [source?, bind_eq_bind, bind_eq_some_iff, filter_eq_some_iff] at hs
  obtain ⟨_, -, ⟨fields, hfields, hs⟩, -⟩ := hs
  obtain ⟨q, hq, rfl⟩ := List.mem_map.1 (mem_of_getElem? hfields)
  exact ⟨q, hq, mem_of_getElem? hs⟩

/-- **Annotating one operator keeps a graph coherent.** -/
theorem coherent_of_annotateNode {done : List Nat} {reached : Dag}
    (htypes : g.typesWithin bound = .ok types) (hprogress : g.Progress types done reached)
    (hcoherent : reached.Coherent) (hfresh : id ∉ done)
    (hproducers : ∀ q ∈ g.producers id, q ∈ done)
    (h : annotateNode types (g.inner.map fun e => (e.1, e.2.annotateWith)) reached id = .ok g') :
    g'.Coherent := by
  obtain ⟨node, node', output, ha⟩ := annotates_of_annotateNode h
  obtain ⟨kinds, hkinds⟩ := hcoherent
  obtain ⟨node₀, inputs, hnode₀, hinputs, hfollows⟩ :=
    (closed_of_typesWithin htypes).1.follows id output ha.typed
  obtain rfl : node = node₀ := mem_unique (hprogress.untouched id hfresh ▸ ha.found) hnode₀
  have hreached : reached.producers id = g.producers id := producers_of_edges hprogress.edges id
  -- What is passed on comes from producers that are noted by their types.
  have hsource : ∀ field ∈ Field.ofTuple output, ∀ s,
      node.kind.source? (reached.inputFields id) field.position = some s →
      s.Agrees kinds reached.allocated ∧ s.type.leading? = field.type.leading? := by
    intro field hfield s hs
    obtain ⟨q, -, hq⟩ := exists_producer_of_source? hs
    refine ⟨hkinds q s hq, ?_⟩
    cases hkind : node.kind with
    | pipeline n a =>
      rw [hkind] at hs
      cases hs
    | primitive p =>
      rw [hkind] at hs hfollows
      have hnamed : (reached.inputFields id).map (List.map Field.named) = inputs := by
        rw [inputTypes_eq hinputs, inputFields, hreached, List.map_map]
        exact map_congr_left fun q hq => (hprogress.noted q (hproducers q hq)).named
      obtain ⟨k, hk⟩ := mem_iff_getElem?.1 hfield
      rw [getElem?_ofTuple, map_eq_some_iff] at hk
      obtain ⟨named, hk, rfl⟩ := hk
      exact (Primitive.passes_of_source? (hnamed ▸ hfollows)
        hs (by rw [type?, hk]; rfl)).leading
  have hprevious : ∀ f ∈ node.note.fields, f.Agrees kinds reached.allocated :=
    fun f hf => hkinds id f (fieldsAt_eq ha.found ▸ hf)
  obtain ⟨kinds', hkinds', hle, hfields⟩ :=
    Assignment.exists_agrees (a := ⟨[], [], reached.allocated⟩) (forall_mem_nil _) hprevious hsource
  refine ⟨kinds', fun m f hf => ?_⟩
  rw [ha.allocated]
  by_cases hm : m = id
  · subst hm
    rw [fieldsAt_eq ha.placed, ha.fields] at hf
    exact hfields f hf
  · rw [ha.fieldsAt_of_ne hm] at hf
    exact (hkinds m f hf).mono hle hkinds'

/-- **Annotation keeps graphs coherent**, at every level. -/
theorem coherent_of_annotateWith (hg : g.Numbered) (hcoherent : g.Everywhere Coherent)
    (htypes : g.typesWithin bound = .ok types) (h : g.annotateWith types = .ok g') :
    g'.Everywhere Coherent := by
  induction hg generalizing bound types g' with
  | @intro g hascending _ ih =>
    have hnodup : g.ids.Nodup := hascending.imp fun h => Nat.ne_of_lt h
    obtain ⟨order, noted, marked, -, -, hnoted, hmarked, rfl⟩ :=
      annotateWith_induction hnodup htypes (P := fun _ reached => reached.Coherent)
        (fun _ _ _ _ _ hfresh hproducers hprogress hreached hnext =>
        coherent_of_annotateNode htypes hprogress hreached hfresh hproducers hnext) hcoherent.here h
    obtain ⟨-, -, hallocated, houtline⟩ := markNodes_eq_ok hmarked
    refine ⟨hnoted.of_fields (fun id f hf => fieldsAt_of_outline houtline id ▸ hf)
      hallocated, fun id b hb => ?_⟩
    obtain ⟨a, inner, ha, -, hinner, hannotated⟩ :=
      (progress_of_annotateWith hnodup htypes h).exists_inside htypes hb
    exact ih id a ha (hcoherent.inside ha) hinner hannotated

end Graph

end Dataflow
