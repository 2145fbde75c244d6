/-
**Operators on rows that agree.**

Two rows agree at some positions if they have equally many fields and the same values at these
positions. An operator looks at some fields of its inputs and passes others on without looking at
them, so on rows that agree where it looks it does the same: if it succeeds on the one, it succeeds
on the other, row by row, and its output rows agree at the positions to which it passes fields on
which they agree.

A fold passes all fields of a first tuple on, since nothing is combined with it if it is the only
one.

Main results:

* `Expr.eval_congr` — an expression depends on the fields that it refers to only;
* `Primitive.related_run` — **an operator on rows that agree where it needs them makes rows that
  agree**.
-/

import Dataflow.Annotation
import Dataflow.Evaluation.Primitive
import Dataflow.Proofs.Expr.Remap
import Mathlib.Data.List.Forall2

namespace Dataflow

open List Outcome Operator

variable {row other : Row} {function : Expr} {v w : Value} {keys : Nat}

/-! ### Related outcomes -/

namespace Outcome

variable {α β γ δ : Type} {R R' : α → β → Prop} {S : γ → δ → Prop} {x : Outcome α} {y : Outcome β}

/-- If the first outcome is a result, the second one is a result that is related to it. -/
def Related (R : α → β → Prop) (x : Outcome α) (y : Outcome β) : Prop :=
  ∀ a, x = .ok a → ∃ b, y = .ok b ∧ R a b

theorem Related.ok {a : α} {b : β} (h : R a b) : Related R (.ok a) (.ok b) := by
  rintro _ ⟨⟩
  exact ⟨b, rfl, h⟩

theorem Related.error (failure : Failure) (y : Outcome β) : Related R (.error failure) y := nofun

theorem Related.of_eq {R : α → α → Prop} (hR : ∀ a, R a a) {y : Outcome α}
    (h : x = y) : Related R x y := by
  rintro a rfl
  exact ⟨a, h.symm, hR a⟩

theorem Related.mono (h : ∀ a b, R a b → R' a b) (hxy : Related R x y) : Related R' x y := by
  intro a ha
  obtain ⟨b, hb, hab⟩ := hxy a ha
  exact ⟨b, hb, h a b hab⟩

variable {f : α → Outcome γ} {xs : List α} {ys : List β} {g : β → Outcome δ}

theorem Related.bind (hxy : Related R x y)
    (hfg : ∀ a b, R a b → Related S (f a) (g b)) : Related S (x >>= f) (y >>= g) := by
  intro c hc
  obtain ⟨a, ha, hc⟩ := bind_eq_ok_iff.1 hc
  obtain ⟨b, hb, hab⟩ := hxy a ha
  obtain ⟨d, hd, hcd⟩ := hfg a b hab c hc
  exact ⟨d, bind_eq_ok_iff.2 ⟨b, hb, hd⟩, hcd⟩

theorem Related.mapM (hxy : Forall₂ R xs ys) (hfg : ∀ a b, R a b → Related S (f a) (g b)) :
    Related (Forall₂ S) (xs.mapM f) (ys.mapM g) := by
  induction hxy with
  | nil => exact .ok .nil
  | cons hab _ ih =>
    rw [mapM_cons, mapM_cons]
    exact (hfg _ _ hab).bind fun c d hcd => ih.bind fun cs ds hcds => .ok (.cons hcd hcds)

theorem Related.foldlM {f : γ → α → Outcome γ} {g : δ → β → Outcome δ} (hxy : Forall₂ R xs ys)
    (hfg : ∀ c d a b, S c d → R a b → Related S (f c a) (g d b)) {c : γ} {d : δ}
    (hcd : S c d) : Related S (xs.foldlM f c) (ys.foldlM g d) := by
  induction hxy generalizing c d with
  | nil => exact .ok hcd
  | cons hab _ ih =>
    rw [foldlM_cons, foldlM_cons]
    exact (hfg c d _ _ hcd hab).bind fun c d hcd => ih hcd

theorem Related.filterM {p : α → Outcome Bool} {q : β → Outcome Bool} (hxy : Forall₂ R xs ys)
    (hpq : ∀ a b, R a b → p a = q b) : Related (Forall₂ R) (xs.filterM p) (ys.filterM q) := by
  intro kept hkept
  obtain ⟨hdecided, rfl⟩ := filterM_eq_ok_iff.1 hkept
  clear hkept
  refine ⟨ys.filter fun y => (q y).holds, filterM_eq_ok_iff.2 ⟨?_, rfl⟩, ?_⟩
  · induction hxy with
    | nil => nofun
    | cons hab _ ih =>
      rw [forall_mem_cons] at hdecided ⊢
      exact ⟨hpq _ _ hab ▸ hdecided.1, ih hdecided.2⟩
  · clear hdecided
    induction hxy with
    | nil => exact .nil
    | cons hab _ ih =>
      rw [filter_cons, filter_cons, hpq _ _ hab]
      split
      · exact .cons hab ih
      · exact ih

theorem mapM_congr {g : β → Outcome γ} (h : Forall₂ (fun x y => f x = g y) xs ys) :
    xs.mapM f = ys.mapM g := by
  induction h with
  | nil => rfl
  | cons hxy _ ih => rw [mapM_cons, mapM_cons, hxy, ih]

end Outcome

open Outcome (Related)

/-! ### Rows that agree -/

/-- Rows with equally many fields and the same values at some positions. -/
structure Row.Agree (P : Nat → Prop) (row other : Row) : Prop where
  length : row.length = other.length
  values : ∀ k, P k → row[k]? = other[k]?

namespace Row.Agree

variable {P Q : Nat → Prop} {row other : Row}

theorem refl (P : Nat → Prop) (row : Row) : Agree P row row := ⟨rfl, fun _ _ => rfl⟩

theorem mono (hPQ : ∀ k, Q k → P k) (h : Agree P row other) : Agree Q row other :=
  ⟨h.length, fun k hk => h.values k (hPQ k hk)⟩

theorem eq (h : Agree P row other) (hP : ∀ k, P k) : row = other :=
  ext_getElem? fun k => h.values k (hP k)

theorem cons (hv : P 0 → v = w) (h : Agree (fun k => P (k + 1)) row other) :
    Agree P (v :: row) (w :: other) where
  length := by rw [length_cons, length_cons, h.length]
  values := by
    rintro (- | k) hk
    · rw [getElem?_cons_zero, getElem?_cons_zero, hv hk]
    · exact h.values k hk

theorem tail (h : Agree P (v :: row) (w :: other)) : Agree (fun k => P (k + 1)) row other :=
  ⟨by simpa using h.length, fun k hk => h.values (k + 1) hk⟩

theorem head (h : Agree P (v :: row) (w :: other)) (hP : P 0) : v = w := by
  simpa using h.values 0 hP

theorem append_drop {L M : Nat → Prop} {left left' right right' : Row} (keys : Nat)
    (hleft : Agree L left left') (hright : Agree M right right')
    (hP : ∀ k, P k → if k < left.length then L k else M (k - left.length + keys)) :
    Agree P (left ++ right.drop keys) (left' ++ right'.drop keys) where
  length := by
    rw [List.length_append, List.length_append, length_drop, length_drop,
      hleft.length, hright.length]
  values := by
    intro k hk
    have hsource := hP k hk
    split at hsource
    · next hlt =>
      rw [getElem?_append_left hlt, getElem?_append_left (hleft.length ▸ hlt)]
      exact hleft.values k hsource
    · next hlt =>
      have hge : left.length ≤ k := Nat.le_of_not_lt hlt
      rw [getElem?_append_right hge, getElem?_append_right (hleft.length ▸ hge), getElem?_drop,
        getElem?_drop, ← hleft.length, Nat.add_comm]
      exact hright.values _ hsource

theorem take_eq (h : Agree P row other) (hP : ∀ k, k < keys → P k) :
    row.take keys = other.take keys := by
  refine ext_getElem? fun k => ?_
  rw [getElem?_take, getElem?_take]
  split
  · next hk => exact h.values k (hP k hk)
  · rfl

end Row.Agree

theorem FieldType.getElem?_storeAll (fields : List (Named FieldType))
    (values : List Value) (k : Nat) :
    (storeAll fields values)[k]? = fields[k]?.bind fun f => values[k]?.map f.type.store := by
  induction fields generalizing values k with
  | nil => cases values <;> simp [storeAll]
  | cons f fields ih =>
    cases values with
    | nil => simp [storeAll]
    | cons v values =>
      cases k with
      | zero => simp [storeAll]
      | succ k => simpa [storeAll] using ih values k

variable {P : Nat → Prop} {e : Expr} {type : TupleType}

theorem Row.Agree.store (h : Row.Agree P row other) (t : TupleType) :
    Row.Agree P (t.store row) (t.store other) where
  length := by simpa using h.length
  values := by
    intro k hk
    simp only [TupleType.store, ← h.length]
    split
    · rw [FieldType.getElem?_storeAll, FieldType.getElem?_storeAll, h.values k hk]
    · exact h.values k hk

/-! ### Expressions -/

/-- **An expression depends on the fields that it refers to only.** -/
theorem Expr.eval_congr {rows others : List Row} {types : Option (List TupleType)}
    (h : ∀ r ∈ e.fields, valueAt rows r = valueAt others r) :
    e.eval rows types = e.eval others types := by
  induction e using induction with
  | field arg index =>
    have hvalue := h (arg, index) (mem_singleton_self _)
    simp only [valueAt] at hvalue
    rw [eval, eval, hvalue]
  | literal value => rfl
  | binary op left right ihl ihr =>
    rw [eval, eval, ihl fun r hr => h r (mem_append_left _ hr),
      ihr fun r hr => h r (mem_append_right _ hr)]
  | unary op operand ih => rw [eval, eval, ih h]
  | tuple items ih =>
    have hall : items.mapM (eval rows types) = items.mapM (eval others types) :=
      mapM_congr (forall₂_same.2 fun e he =>
        ih e he fun r hr => h r (mem_fieldsAll.2 ⟨e, he, hr⟩))
    rw [eval, eval, evalAll_eq_mapM, evalAll_eq_mapM, hall]

theorem Expr.evalTyped_congr (he : ∀ r ∈ e.fields, P r.2)
    (h : Row.Agree P row other) : e.evalTyped [type] [row] = e.evalTyped [type] [other] := by
  refine eval_congr fun r hr => ?_
  obtain ⟨arg, index⟩ := r
  cases arg with
  | zero => exact h.values index (he _ hr)
  | succ arg => rfl

theorem combine_congr {acc acc' next next' : Row}
    (hfunction : ∀ r ∈ function.fields, P r.2) (hacc : Row.Agree P acc acc')
    (hnext : Row.Agree P next next') :
    combine function type acc next = combine function type acc' next' := by
  have heval : function.evalTyped [type, type] [acc, next] =
      function.evalTyped [type, type] [acc', next'] := by
    refine Expr.eval_congr fun r hr => ?_
    obtain ⟨arg, index⟩ := r
    match arg with
    | 0 => exact hacc.values index (hfunction _ hr)
    | 1 => exact hnext.values index (hfunction _ hr)
    | arg + 2 => rfl
  rw [combine, combine, heval]

/-! ### Operators -/

/-- Whether an operator combines tuples with a first one, which it passes on. -/
def Primitive.isFold : Primitive → Bool
  | reduce _ => true
  | reduceByKey _ => true
  | _ => false

/-- The input positions `need` that an operator needs for the positions `live` of its output: those
that it reads, those that it passes on to live positions, and, if it is a fold, the live positions
themselves. `left` is the number of fields of input 0. -/
structure Primitive.Needs (p : Primitive) (left : Nat) (live : Nat → Prop)
    (need : Nat → Nat → Prop) : Prop where
  reads : ∀ positions, (primitive p).readPositions = some positions →
    ∀ i j, (i, j) ∈ positions → need i j
  readsAll : (primitive p).readPositions = none → ∀ i j, need i j
  passes : ∀ k i j, live k → (primitive p).origin? left k = some (i, j) → need i j
  folds : p.isFold = true → ∀ k, live k → need 0 k

section Rows

variable {P live : Nat → Prop} {rows others : Rows}
variable {type : TupleType} {aggregates : List Aggregate}

theorem related_reduceRows (hfunction : ∀ r ∈ function.fields, P r.2) (hlive : ∀ k, live k → P k)
    (h : Forall₂ (Row.Agree P) rows others) :
    Related (Forall₂ (Row.Agree live)) (reduceRows function type rows)
    (reduceRows function type others) := by
  cases h with
  | nil => exact .ok .nil
  | cons hfirst hrest =>
    refine Related.bind (R := Row.Agree P)
      (.foldlM hrest (fun acc acc' row row' hacc hrow => ?_) hfirst) fun row row' hrow =>
      .ok (.cons (hrow.mono hlive) .nil)
    exact .of_eq (Row.Agree.refl P) (combine_congr hfunction hacc hrow)

/-- Groups with the same keys and related values. -/
def Groups.Alike {α β : Type} (R : α → β → Prop) : Groups α → Groups β → Prop :=
  Forall₂ fun a b => a.1 = b.1 ∧ R a.2 b.2

theorem Groups.related_update {α β : Type} {R : α → β → Prop} {f : Option α → Outcome α}
    {g : Option β → Outcome β} (hnone : Related R (f none) (g none))
    (hsome : ∀ a b, R a b → Related R (f (some a)) (g (some b))) {as : Groups α} {bs : Groups β}
    (h : Groups.Alike R as bs) (key : String) :
    Related (Groups.Alike R) (Groups.update key f as) (Groups.update key g bs) := by
  induction h with
  | nil => exact hnone.bind fun a b hab => .ok (.cons ⟨rfl, hab⟩ .nil)
  | @cons a b as bs hab hrest ih =>
    obtain ⟨k, a⟩ := a
    obtain ⟨_, b⟩ := b
    obtain ⟨rfl, hab⟩ := hab
    rw [Groups.update, Groups.update]
    split
    · exact (hsome a b hab).bind fun a b hab => .ok (.cons ⟨rfl, hab⟩ hrest)
    · exact ih.bind fun as bs hrest => .ok (.cons ⟨rfl, hab⟩ hrest)

theorem related_reduceByKeyRows (hkey : P 0) (hfunction : ∀ r ∈ function.fields, P (r.2 + 1))
    (hlive : ∀ k, live k → P k) (h : Forall₂ (Row.Agree P) rows others) :
    Related (Forall₂ (Row.Agree live)) (reduceByKeyRows function type rows)
      (reduceByKeyRows function type others) := by
  let R : Value × Row → Value × Row → Prop :=
    fun a b => a.1 = b.1 ∧ Row.Agree (fun k => P (k + 1)) a.2 b.2
  refine Related.bind (R := Groups.Alike R)
    (.foldlM h (fun groups groups' row row' hgroups hrow => ?_) .nil)
    fun groups groups' hgroups => .ok ?_
  · cases row with
    | nil => exact .error _ _
    | cons key values =>
      cases row' with
      | nil => exact nomatch hrow.length
      | cons key' values' =>
        obtain rfl := hrow.head hkey
        refine Groups.related_update (.ok ⟨rfl, hrow.tail⟩) ?_ hgroups _
        rintro ⟨k, acc⟩ ⟨_, acc'⟩ ⟨rfl, hacc⟩
        exact (Related.of_eq (Row.Agree.refl _) (combine_congr hfunction hacc hrow.tail)).bind
          fun acc acc' hacc => .ok ⟨rfl, hacc⟩
  · rw [forall₂_map_left_iff, forall₂_map_right_iff]
    refine hgroups.imp ?_
    rintro ⟨_, key, values⟩ ⟨_, key', values'⟩ ⟨-, hkeys, hvalues⟩
    exact (Row.Agree.cons (fun _ => hkeys) hvalues).mono hlive

theorem mapM_update_congr (hvalue : ∀ a ∈ aggregates, a.field.bind (row[·]?) =
      a.field.bind (other[·]?))
    (accumulators : List Accumulator) :
    ((aggregates.zip accumulators).mapM fun (a, acc) => acc.update (a.field.bind (row[·]?))) =
      (aggregates.zip accumulators).mapM fun (a, acc) => acc.update (a.field.bind (other[·]?)) := by
  refine mapM_congr (forall₂_same.2 fun e he => ?_)
  obtain ⟨a, acc⟩ := e
  simp only [hvalue a (of_mem_zip he).1]

theorem aggregateInto_congr {keys : List Nat} {groups : Groups (Row × List Accumulator)}
    (hkeys : ∀ k ∈ keys, P k) (hfields : ∀ a ∈ aggregates, ∀ k, a.field = some k → P k)
    (h : Row.Agree P row other) :
    aggregateInto keys aggregates type groups row =
      aggregateInto keys aggregates type groups other := by
  have hkey : (keys.mapM fun k => Row.field row k (.missingGroupKey k)) =
      keys.mapM fun k => Row.field other k (.missingGroupKey k) :=
    mapM_congr (forall₂_same.2 fun k hk => by rw [Row.field, Row.field, h.values k (hkeys k hk)])
  have hvalue : ∀ a ∈ aggregates, a.field.bind (row[·]?) = a.field.bind (other[·]?) := by
    intro a ha
    cases hfield : a.field with
    | none => rfl
    | some k => exact h.values k (hfields a ha k hfield)
  simp only [aggregateInto, hkey, mapM_update_congr hvalue]

theorem groupRows_congr {keys : List Nat} (hkeys : ∀ k ∈ keys, P k)
    (hfields : ∀ a ∈ aggregates, ∀ k, a.field = some k → P k)
    (h : Forall₂ (Row.Agree P) rows others) :
    groupRows keys aggregates type rows = groupRows keys aggregates type others := by
  have hfold : ∀ groups, rows.foldlM (aggregateInto keys aggregates type) groups =
      others.foldlM (aggregateInto keys aggregates type) groups := by
    induction h with
    | nil => exact fun _ => rfl
    | cons hrow _ ih =>
      intro groups
      rw [foldlM_cons, foldlM_cons, aggregateInto_congr hkeys hfields hrow]
      exact bind_congr ih
  rw [groupRows, groupRows, hfold]

theorem joinKey_congr (hkeys : ∀ k, k < keys → P k)
    (h : Row.Agree P row other) : joinKey keys row = joinKey keys other := by
  rw [joinKey, joinKey, h.length, h.take_eq hkeys]

theorem related_joinRows {L M : Nat → Prop} {width : Nat} {left left' right right' : Rows}
    (hwidth : ∀ row ∈ left, row.length = width) (hL : ∀ k, k < keys → L k)
    (hM : ∀ k, k < keys → M k)
    (hlive : ∀ k, live k → if k < width then L k else M (k - width + keys))
    (hleft : Forall₂ (Row.Agree L) left left') (hright : Forall₂ (Row.Agree M) right right') :
    Related (Forall₂ (Row.Agree live)) (joinRows keys left right) (joinRows keys left' right') := by
  refine Related.bind (R := Groups.Alike (Row.Agree M)) (.mapM hright fun row row' hrow => ?_)
    fun keyed keyed' hkeyed => ?_
  · exact (Related.of_eq (R := Eq) (fun _ => rfl) (joinKey_congr hM hrow)).bind
      fun _ _ hkey => .ok ⟨hkey, hrow⟩
  · refine Related.bind (R := Forall₂ (Forall₂ (Row.Agree live)))
      (.mapM ((forall₂_and_left _ _).2 ⟨hwidth, hleft⟩) ?_) fun _ _ hpairs =>
      .ok (rel_flatten hpairs)
    rintro row row' ⟨rfl, hrow⟩
    refine (Related.of_eq (R := Eq) (fun _ => rfl) (joinKey_congr hL hrow)).bind fun key _ hkey =>
      .ok ?_
    obtain rfl := hkey
    rw [forall₂_map_left_iff, forall₂_map_right_iff]
    have hfiltered : Groups.Alike (Row.Agree M) (keyed.filter (·.1 == key))
      (keyed'.filter (·.1 == key)) :=
      rel_filter (fun a b hab => by simp only [hab.1]) hkeyed
    refine hfiltered.imp ?_
    rintro ⟨_, other⟩ ⟨_, other'⟩ ⟨-, hother⟩
    exact hrow.append_drop keys hother hlive

end Rows

namespace Primitive

variable {p : Primitive} {left : Nat} {live : Nat → Prop} {need : Nat → Nat → Prop}

/-- A function over the fields that it reads needs all fields that it refers to. -/
theorem Needs.fields {e : Expr} (hneeds : p.Needs left live need)
    (h : (primitive p).readPositions =
      some (e.references.map fun (_, index) => (0, index))) :
    ∀ r ∈ e.fields, need 0 r.2 := by
  intro r hr
  exact hneeds.reads _ h 0 r.2 (List.mem_map.2 ⟨r, Expr.mem_references.2 hr, rfl⟩)

/-- An operator with one input, on rows that agree where it needs them, makes rows that agree. -/
theorem related_runUnary (type : TupleType) {rows others : Rows} (hneeds : p.Needs left live need)
    (hinputs : p.inputs = 1) (h : Forall₂ (Row.Agree (need 0)) rows others) :
    Related (Forall₂ (Row.Agree live)) (p.runUnary type rows) (p.runUnary type others) := by
  have hrefl : ∀ rows : Rows, Forall₂ (Row.Agree live) rows rows :=
    fun rows => forall₂_same.2 fun row _ => Row.Agree.refl live row
  -- The rows themselves are passed on by operators that change none of their fields.
  have hsame : (∀ k, (primitive p).origin? left k = some (0, k)) →
      ∀ row other, Row.Agree (need 0) row other → Row.Agree live row other :=
    fun horigin row other hrow => hrow.mono fun k hk => hneeds.passes k 0 k hk (horigin k)
  cases p with
  | rowScan addIndex =>
    have hfirst : need 0 0 := hneeds.reads _ rfl 0 0 (mem_singleton_self _)
    have hscan : rows.mapM (scanRow addIndex) = others.mapM (scanRow addIndex) := by
      refine mapM_congr (h.imp fun row other hrow => ?_)
      rw [scanRow, scanRow, head?_eq_getElem?, head?_eq_getElem?, hrow.values 0 hfirst]
    exact .of_eq hrefl (by rw [runUnary, runUnary, hscan])
  | filter predicate =>
    refine Related.mono (fun _ _ hkept => hkept.imp (hsame fun k => rfl)) (.filterM h ?_)
    intro row other hrow
    rw [passes, passes, Expr.evalTyped_congr (hneeds.fields rfl) hrow]
  | map function =>
    refine .mapM h fun row other hrow => .of_eq (Row.Agree.refl live) ?_
    rw [Expr.evalTyped_congr (hneeds.fields rfl) hrow]
  | projection positions =>
    refine .mapM h fun row other hrow result hresult => ?_
    rw [projectRow, mapM_eq_ok_iff] at hresult
    simp only [Row.field, ofOption_eq_ok_iff] at hresult
    refine ⟨positions.map fun j => (other[j]?).getD (.int 0), ?_, ?_, fun k hk => ?_⟩
    · refine mapM_ok fun j hj => ?_
      obtain ⟨k, hk⟩ := mem_iff_getElem?.1 hj
      obtain ⟨v, -, hv⟩ := exists_of_forall₂ hresult hk
      rw [Row.field, getElem?_eq_getElem (hrow.length ▸ (List.getElem?_eq_some_iff.1 hv).1)]
      rfl
    · rw [List.length_map, hresult.length_eq]
    · rw [getElem?_map]
      cases hj : positions[k]? with
      | none =>
        rw [List.getElem?_eq_none_iff, hresult.length_eq] at hj
        rw [List.getElem?_eq_none_iff.2 hj]
        rfl
      | some j =>
        obtain ⟨v, hk', hvalue⟩ := exists_of_forall₂ hresult hj
        have hneed : need 0 j := hneeds.passes k 0 j hk (by simp [origin?, hj])
        rw [hk', Option.map_some, ← hrow.values j hneed, hvalue, Option.getD_some]
  | reduce function =>
    exact related_reduceRows (hneeds.fields rfl) (hneeds.folds rfl) h
  | reduceByKey function =>
    have hreads := hneeds.reads _ rfl
    refine related_reduceByKeyRows (hreads 0 0 (by simp)) (fun r hr => ?_) (hneeds.folds rfl) h
    refine hreads 0 (r.2 + 1) (mem_append_left _ ?_)
    exact List.mem_map.2 ⟨r, Expr.mem_references.2 hr, rfl⟩
  | groupBy keys aggregates =>
    have hreads := hneeds.reads _ rfl
    refine .of_eq hrefl (groupRows_congr (P := need 0) (fun k hk => ?_) (fun a ha k hk => ?_) h)
    · exact hreads 0 k (List.mem_map.2 ⟨k, mem_append_left _ hk, rfl⟩)
    · refine hreads 0 k (List.mem_map.2 ⟨k, mem_append_right _ ?_, rfl⟩)
      exact mem_filterMap.2 ⟨a, ha, hk⟩
  | partition count key =>
    have hkey : need 0 key := hneeds.reads _ rfl 0 key (mem_singleton_self _)
    refine .mapM h fun row other hrow => ?_
    rw [partitionRow, partitionRow, hrow.values key hkey]
    refine (Related.of_eq (R := Eq) (fun _ => rfl) rfl).bind fun i _ hi => .ok ?_
    refine Row.Agree.cons (fun _ => by rw [hi]) (hrow.mono fun k hk => ?_)
    exact hneeds.passes (k + 1) 0 k hk (by simp [origin?])
  | materializeRowVector =>
    have hall : rows = others := by
      rw [← forall₂_eq_eq_eq]
      exact h.imp fun row other hrow => hrow.eq (hneeds.readsAll rfl 0)
    exact .of_eq hrefl (by rw [hall])
  | ensureSingleTuple =>
    rw [runUnary, runUnary, h.length_eq]
    split
    · exact .ok (h.imp (hsame fun k => rfl))
    · exact .error _ _
  | range _ | constantTuple _ | parameterLookup _ _ | join _ | cartesian => cases hinputs

/-- **An operator on rows that agree where it needs them makes rows that agree.**  The operator is
not a look-up, and the rows of its first input have as many fields as `left` says. -/
theorem related_run {operands operands' : List Stream} (parameters parameters' : List Rows)
    (hlookup : p.tag ≠ .parameterLookup) (hneeds : p.Needs left live need)
    (hlength : operands.length = p.inputs)
    (hleft : ∀ s, operands[0]? = some s → ∀ row ∈ s.rows, row.length = left)
    (hoperands : Forall₂ (fun s s' => Stream.type s = Stream.type s') operands operands')
    (hrows : ∀ i s s', operands[i]? = some s → operands'[i]? = some s' →
      Forall₂ (Row.Agree (need i)) s.rows s'.rows) :
    Related (Forall₂ (Row.Agree live)) (p.run operands parameters)
      (p.run operands' parameters') := by
  have hrefl : ∀ rows : Rows, Forall₂ (Row.Agree live) rows rows :=
    fun rows => forall₂_same.2 fun row _ => Row.Agree.refl live row
  have hpair : ∀ keys, (∀ k, (primitive p).origin? left k =
        some (if k < left then (0, k) else (1, k - left + keys))) →
      ∀ k, live k → if k < left then need 0 k else need 1 (k - left + keys) := by
    intro keys horigin k hk
    have hneed := fun i j => hneeds.passes k i j hk
    rw [horigin k] at hneed
    split
    · next hlt => exact hneed 0 k (by rw [if_pos hlt])
    · next hlt => exact hneed 1 _ (by rw [if_neg hlt])
  cases p with
  | range | constantTuple => exact .ok (hrefl _)
  | parameterLookup n declared => exact absurd rfl hlookup
  | join keys =>
    obtain ⟨s, t, rfl⟩ := length_eq_two.1 hlength
    obtain ⟨s', t', rfl⟩ := length_eq_two.1 (hoperands.length_eq ▸ hlength)
    have hkey : ∀ k, k < keys → need 0 k ∧ need 1 k := by
      intro k hk
      have hmem : ∀ i, i < 2 → (i, k) ∈ (List.range keys).flatMap fun k => [(0, k), (1, k)] := by
        intro i hi
        refine mem_flatMap.2 ⟨k, mem_range.2 hk, ?_⟩
        match i, hi with
        | 0, _ => simp
        | 1, _ => simp
      exact ⟨hneeds.reads _ rfl 0 k (hmem 0 (by decide)),
        hneeds.reads _ rfl 1 k (hmem 1 (by decide))⟩
    exact related_joinRows (hleft s rfl) (fun k hk => (hkey k hk).1) (fun k hk => (hkey k hk).2)
      (hpair keys fun k => rfl) (hrows 0 s s' rfl rfl) (hrows 1 t t' rfl rfl)
  | cartesian =>
    obtain ⟨s, t, rfl⟩ := length_eq_two.1 hlength
    obtain ⟨s', t', rfl⟩ := length_eq_two.1 (hoperands.length_eq ▸ hlength)
    refine .ok (rel_flatMap ((forall₂_and_left _ _).2 ⟨hleft s rfl, hrows 0 s s' rfl rfl⟩) ?_)
    rintro l l' ⟨rfl, hl⟩
    rw [forall₂_map_left_iff, forall₂_map_right_iff]
    exact (hrows 1 t t' rfl rfl).imp fun r r' hr => hl.append_drop 0 hr (hpair 0 fun k => rfl)
  | _ =>
    obtain ⟨⟨type, rows⟩, rfl⟩ := length_eq_one_iff.1 hlength
    obtain ⟨⟨_, others⟩, rfl⟩ := length_eq_one_iff.1 (hoperands.length_eq ▸ hlength)
    cases hoperands with
    | cons htype _ =>
      obtain rfl : type = _ := htype
      exact related_runUnary type hneeds rfl (hrows 0 _ _ rfl rfl)

end Primitive

end Dataflow
