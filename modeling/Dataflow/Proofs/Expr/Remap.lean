/-
**Expressions over other fields.**

An expression whose fields are replaced through a map has the type and the value that it had, if the
map leads every field that it refers to to one of the same type and the same value.

Main results:

* `Expr.typeAt_of_infer` — an expression that has a type refers to fields that there are;
* `Expr.atomic_of_infer` — an expression of an atomic type refers to atomic fields only;
* `Expr.fields_remap` — fields are replaced one by one;
* `Expr.exists_remap` — fields can be replaced where the map drops none of them;
* `Expr.infer_remap` — **replacing fields keeps the type**;
* `Expr.eval_remap` — **replacing fields keeps the value**;
* `Expr.remap_faithful` — **replacing fields is faithful**: it fails only where the map drops a
  field.
-/

import Dataflow.Proofs.Expr.Soundness

namespace Dataflow.Expr

open List Option Outcome

variable {e : Expr} {args : List TupleType} {r : Nat × Nat} {items items' : List Expr}

/-- The type of the field that a reference means: argument and position. -/
def typeAt (args : List TupleType) (r : Nat × Nat) : Option FieldType :=
  args[r.1]?.bind (TupleType.type? · r.2)

/-- The value of the field that a reference means: argument and position. -/
def valueAt (rows : List Row) (r : Nat × Nat) : Option Value := rows[r.1]?.bind (·[r.2]?)

theorem mem_references : r ∈ e.references ↔ r ∈ e.fields := by
  rw [references, mem_eraseDups]

theorem mem_fieldsAll : r ∈ fieldsAll items ↔ ∃ e ∈ items, r ∈ e.fields := by
  induction items with
  | nil => simp [fieldsAll]
  | cons e items ih => simp [fieldsAll, ih]

theorem remapAll_eq_some_iff {f : Nat → Nat → Option (Nat × Nat)} :
    remapAll f items = some items' ↔ Forall₂ (fun e e' => e.remap f = some e') items items' := by
  induction items generalizing items' with
  | nil => simp [remapAll, eq_comm]
  | cons e items ih =>
    simp only [remapAll, bind_eq_bind, bind_eq_some_iff, Option.pure_def, some.injEq, ih]
    constructor
    · rintro ⟨e', he', rest, hrest, rfl⟩
      exact .cons he' hrest
    · intro h
      cases h with
      | cons he' hrest => exact ⟨_, he', _, hrest, rfl⟩

theorem typeAt_of_infer {t : FieldType} (h : e.infer args = .ok t) :
    ∀ r ∈ e.fields, ∃ t, typeAt args r = some t := by
  induction e, t, h using infer_induction with
  | field arg index t fields h =>
    intro r hr
    obtain rfl := mem_singleton.1 hr
    exact ⟨t, ofOption_eq_ok_iff.1 h⟩
  | literal value => simp [fields]
  | binary op left right a b k _ _ _ _ ihl ihr =>
    intro ref href
    rw [fields, mem_append] at href
    exact href.elim (ihl ref) (ihr ref)
  | unary op operand k _ _ _ ih => exact ih
  | tuple items types _ htypes ih =>
    intro r hr
    obtain ⟨e, he, hr⟩ := mem_fieldsAll.1 hr
    obtain ⟨i, hi⟩ := mem_iff_getElem?.1 he
    obtain ⟨t, -, ht⟩ := exists_of_forall₂ htypes hi
    exact ih e he t ht r hr

/-- An expression of an atomic type refers to atomic fields only: operators take no other operands,
and tuples are not atomic. -/
theorem atomic_of_infer {k : Kind} (h : e.infer args = .ok (.atomic k)) :
    ∀ r ∈ e.fields, ∃ k, typeAt args r = some (.atomic k) := by
  generalize ht : FieldType.atomic k = t at h
  induction e, t, h using infer_induction generalizing k with
  | field arg index t fields h =>
    intro r hr
    obtain rfl := mem_singleton.1 hr
    exact ⟨k, ht ▸ ofOption_eq_ok_iff.1 h⟩
  | literal value => simp [fields]
  | binary op left right a b _ _ _ _ _ ihl ihr =>
    intro ref href
    rw [fields, mem_append] at href
    exact href.elim (ihl rfl ref) (ihr rfl ref)
  | unary op operand _ _ _ _ ih => exact ih rfl
  | tuple items types => cases ht

variable {f f' : Nat → Nat → Option (Nat × Nat)} {args args' : List TupleType}
  {rows rows' : List Row}

/-- **The cases of an expression whose fields are replaced.** -/
theorem remap_induction {motive : ∀ e e', remap f e = some e' → Prop}
    (field : ∀ arg index r h, f arg index = some r → motive (field arg index) (field r.1 r.2) h)
    (literal : ∀ value h, motive (literal value) (literal value) h)
    (binary : ∀ op left right l r h hl hr, motive left l hl → motive right r hr →
      motive (binary op left right) (binary op l r) h)
    (unary : ∀ op operand u h hu, motive operand u hu → motive (unary op operand) (unary op u) h)
    (tuple : ∀ items items' h, Forall₂ (fun e e' => remap f e = some e') items items' →
      (∀ e ∈ items, ∀ e' h, motive e e' h) → motive (tuple items) (tuple items') h)
    (e e' : Expr) (h : remap f e = some e') : motive e e' h := by
  induction e using induction generalizing e' with
  | field arg index =>
    obtain ⟨r, hr, rfl⟩ := map_eq_some_iff.1 h
    exact field arg index r h hr
  | literal value =>
    cases h
    exact literal value rfl
  | binary op left right ihl ihr =>
    have hparts := h
    simp only [remap, bind_eq_bind, bind_eq_some_iff, Option.pure_def, some.injEq] at hparts
    obtain ⟨l, hl, r, hr, rfl⟩ := hparts
    exact binary op left right l r h hl hr (ihl l hl) (ihr r hr)
  | unary op operand ih =>
    obtain ⟨u, hu, rfl⟩ := map_eq_some_iff.1 h
    exact unary op operand u h hu (ih u hu)
  | tuple items ih =>
    obtain ⟨items', hitems, rfl⟩ := map_eq_some_iff.1 h
    exact tuple items items' h (remapAll_eq_some_iff.1 hitems) ih

theorem fields_remap {e e' : Expr} (h : e.remap f = some e') :
    Forall₂ (fun r r' => f r.1 r.2 = some r') e.fields e'.fields := by
  induction e, e', h using remap_induction with
  | field arg index r _ hr => exact .cons hr .nil
  | literal value => exact .nil
  | binary op left right l r _ _ _ ihl ihr => exact rel_append ihl ihr
  | unary op operand u _ _ ih => exact ih
  | tuple items items' h hitems ih =>
    clear h
    induction hitems with
    | nil => exact .nil
    | cons he _ ihs =>
      exact rel_append (ih _ mem_cons_self _ he) (ihs fun e he => ih e (mem_cons_of_mem _ he))

/-- Fields cannot be replaced exactly if the map drops one of them. -/
theorem remap_eq_none_iff : e.remap f = none ↔ ∃ r ∈ e.fields, f r.1 r.2 = none := by
  induction e using induction with
  | field arg index => simp [remap, fields]
  | literal value => simp [remap, fields]
  | binary op left right ihl ihr =>
    simp only [fields, mem_append, or_and_right, exists_or, ← ihl, ← ihr, remap]
    cases left.remap f <;> cases right.remap f <;> simp
  | unary op operand ih => rw [fields, ← ih, remap, Option.map_eq_map, map_eq_none_iff]
  | tuple items ih =>
    rw [fields, remap, Option.map_eq_map, map_eq_none_iff]
    induction items with
    | nil => simp [remapAll, fieldsAll]
    | cons e items ihs =>
      rw [forall_mem_cons] at ih
      simp only [fieldsAll, mem_append, or_and_right, exists_or, ← ih.1, ← ihs ih.2, remapAll]
      cases e.remap f <;> cases remapAll f items <;> simp

/-- Fields can be replaced where the map drops none of them. -/
theorem exists_remap (h : ∀ r ∈ e.fields, (f r.1 r.2).isSome = true) :
    ∃ e', e.remap f = some e' := by
  refine ne_none_iff_exists'.1 fun hnone => ?_
  obtain ⟨r, hr, hdropped⟩ := remap_eq_none_iff.1 hnone
  simpa [hdropped] using h r hr

/-- Fields that can be replaced through a map can be replaced through one that drops nothing
else. -/
theorem isSome_remap (h : (e.remap f).isSome = true)
    (hf : ∀ arg index, (f arg index).isSome = true → (f' arg index).isSome = true) :
    (e.remap f').isSome = true := by
  refine isSome_iff_exists.2 (exists_remap fun r hr => hf r.1 r.2 ?_)
  refine isSome_iff_ne_none.2 fun hdropped => ?_
  rw [remap_eq_none_iff.2 ⟨r, hr, hdropped⟩] at h
  cases h

theorem mapM_remap {β : Type} {F F' : Expr → Outcome β}
    (h : Forall₂ (fun e e' => e.remap f = some e') items items')
    (hagree : ∀ e ∈ items, ∀ e', e.remap f = some e' → F' e' = F e) :
    items'.mapM F' = items.mapM F := by
  induction h with
  | nil => rfl
  | @cons e e' items items' he _ ih =>
    rw [mapM_cons, mapM_cons, hagree e mem_cons_self e' he,
      ih fun e he => hagree e (mem_cons_of_mem _ he)]

/-- **Replacing fields keeps the type** of an expression, if they are replaced by fields of their
types. -/
theorem infer_remap {e e' : Expr} (h : e.remap f = some e')
    (htypes : ∀ r ∈ e.fields, ∀ r', f r.1 r.2 = some r' → ∃ t, typeAt args r = some t ∧
      typeAt args' r' = some t) :
    e'.infer args' = e.infer args := by
  induction e, e', h using remap_induction with
  | field arg index r _ hr =>
    obtain ⟨t, ht, ht'⟩ := htypes (arg, index) (mem_singleton_self _) r hr
    simp only [typeAt] at ht ht'
    simp only [infer, ht, ht', ofOption_some]
  | literal value => rfl
  | binary op left right l r _ _ _ ihl ihr =>
    rw [fields, forall_mem_append] at htypes
    rw [infer, infer, ihl htypes.1, ihr htypes.2]
  | unary op operand u _ _ ih => rw [infer, infer, ih htypes]
  | tuple items items' _ hitems ih =>
    have hall : items'.mapM (infer args') = items.mapM (infer args) :=
      mapM_remap hitems fun e he e' he' =>
      ih e he e' he' fun r hr => htypes r (mem_fieldsAll.2 ⟨e, he, hr⟩)
    rw [infer, infer, inferAll_eq_mapM, inferAll_eq_mapM, hall]

/-- **Replacing fields keeps the value** of an expression, if they are replaced by fields of their
types and values. -/
theorem eval_remap {e e' : Expr} (h : e.remap f = some e')
    (htypes : ∀ r ∈ e.fields, ∀ r', f r.1 r.2 = some r' → ∃ t, typeAt args r = some t ∧
      typeAt args' r' = some t)
    (hvalues : ∀ r ∈ e.fields, ∀ r', f r.1 r.2 = some r' → ∃ v, valueAt rows r = some v ∧
      valueAt rows' r' = some v) :
    e'.evalTyped args' rows' = e.evalTyped args rows := by
  have hnarrow : ∀ {e e' : Expr}, e'.infer args' = e.infer args → ∀ v,
      narrow (some args') e' v = narrow (some args) e v := by
    intro e e' hinfer v
    cases v <;> simp only [narrow, hinfer]
  simp only [evalTyped]
  induction e, e', h using remap_induction with
  | field arg index r _ hr =>
    obtain ⟨v, hv, hv'⟩ := hvalues (arg, index) (mem_singleton_self _) r hr
    simp only [valueAt] at hv hv'
    simp only [eval, hv, hv', ofOption_some]
  | literal value => rfl
  | binary op left right l r h _ _ ihl ihr =>
    have hinfer := infer_remap h htypes
    rw [fields, forall_mem_append] at htypes hvalues
    simp only [eval, ihl htypes.1 hvalues.1, ihr htypes.2 hvalues.2, hnarrow hinfer]
  | unary op operand u h _ ih =>
    simp only [eval, ih htypes hvalues, hnarrow (infer_remap h htypes)]
  | tuple items items' _ hitems ih =>
    have hall : items'.mapM (eval rows' (some args')) = items.mapM (eval rows (some args)) := by
      refine mapM_remap hitems fun e he e' he' => ?_
      have hmem : ∀ r ∈ e.fields, r ∈ (tuple items).fields :=
        fun r hr => mem_fieldsAll.2 ⟨e, he, hr⟩
      exact ih e he e' he' (fun r hr => htypes r (hmem r hr)) fun r hr => hvalues r (hmem r hr)
    rw [eval, eval, evalAll_eq_mapM, evalAll_eq_mapM, hall]

/-- **Replacing fields is faithful**: it fails exactly if the map drops a field that the expression
refers to.  If every such field is replaced by one of its type and its value, the expression keeps
its type and its value, and fails as it did. -/
theorem remap_faithful (e : Expr) (f : Nat → Nat → Option (Nat × Nat)) :
    (e.remap f = none ↔ ∃ r ∈ e.references, f r.1 r.2 = none) ∧
    ∀ args args' rows rows', (∀ r ∈ e.references, ∃ r', f r.1 r.2 = some r' ∧
        (∃ t, typeAt args r = some t ∧ typeAt args' r' = some t) ∧
        ∃ v, valueAt rows r = some v ∧ valueAt rows' r' = some v) →
      ∃ e', e.remap f = some e' ∧ e'.infer args' = e.infer args ∧
        e'.evalTyped args' rows' = e.evalTyped args rows := by
  simp only [mem_references]
  refine ⟨remap_eq_none_iff, fun args args' rows rows' h => ?_⟩
  have hkept : ∀ r ∈ e.fields, ∀ r', f r.1 r.2 = some r' →
      (∃ t, typeAt args r = some t ∧ typeAt args' r' = some t) ∧
      ∃ v, valueAt rows r = some v ∧ valueAt rows' r' = some v := by
    intro r hr r' hr'
    obtain ⟨_, hr'', hsame⟩ := h r hr
    rwa [mem_unique hr' hr'']
  obtain ⟨e', he'⟩ := exists_remap (e := e) (f := f) fun r hr => by
    obtain ⟨r', hr', -⟩ := h r hr
    rw [hr', isSome_some]
  exact ⟨e', he', infer_remap he' fun r hr r' hr' => (hkept r hr r' hr').1,
    eval_remap he' (fun r hr r' hr' => (hkept r hr r' hr').1) fun r hr r' hr' =>
    (hkept r hr r' hr').2⟩

/-- A quotient that is looked at only if a number of another tuple is less than the divisor. -/
def guardedQuotient : Expr :=
  binary .and (binary .lt (field 1 0) (field 0 1))
    (binary .gt (binary .div (literal (.int 10)) (field 0 1)) (field 1 0))

/-- Over both tuples side by side the quotient fails as it did. -/
theorem guardedQuotient_remap_faithful :
    let pair : TupleType := [⟨"name", .atomic .bool⟩, ⟨"size", .atomic .int8⟩]
    let single : TupleType := [⟨"least", .atomic .int64⟩]
    ∃ e', guardedQuotient.remap (fun arg index => some (0, 2 * arg + index)) = some e' ∧
      e'.infer [pair ++ single] = .ok (.atomic .bool) ∧
      e'.evalTyped [pair ++ single] [[.bool true, .int 0, .int (-3)]] =
      .error (.execution .divisionByZero) := by
  intro pair single
  have hfields : ∀ r ∈ guardedQuotient.references, r = (1, 0) ∨ r = (0, 1) := by decide
  obtain ⟨e', he', htype, hvalue⟩ :=
    (remap_faithful guardedQuotient fun arg index => some (0, 2 * arg + index)).2
    [pair, single] [pair ++ single] [[.bool true, .int 0], [.int (-3)]]
    [[.bool true, .int 0, .int (-3)]] fun r hr => by
      rcases hfields r hr with rfl | rfl <;> exact ⟨_, rfl, ⟨_, rfl, rfl⟩, _, rfl, rfl⟩
  exact ⟨e', he', htype.trans rfl, hvalue.trans rfl⟩

end Dataflow.Expr
