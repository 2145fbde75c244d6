/-
**Operators keep their types.**

The rows that an operator produces fit its output type, if the rows of its inputs are held by their
types.  There is one exception.  A fold over tuples whose only field is itself a tuple may return
that tuple alone; its fields are then taken for the fields of the row, and the row is not of the
type of the fold any more.  Such folds are told apart by `Primitive.returnsBareTuple`.

Main results:

* `FieldType.fits_row` — the fields of a result fit the tuple type of the result;
* `types_row_of_foldsTo` — the result of any other fold has the fields of its tuples;
* `Primitive.fits_of_run` — **what an operator produces fits its output type**.
-/

import Dataflow.Evaluation.Primitive
import Dataflow.Proofs.Expr.Soundness
import Dataflow.Proofs.TypeRules

namespace Dataflow

open List Outcome TupleType FieldType

variable {aggregates : List Aggregate} {types : List FieldType} {row : Row} {v : Value}

/-! ### Rows made of rows -/

namespace TupleType

theorem fits_positional : (positional types).Fits row ↔
      Forall₂ (fun type v => fits type v = true) types row := by
  rw [Fits, types_positional]

theorem holds_cons_iff {t : TupleType} {values : Row} :
    t.Holds (v :: values) ↔ ∃ type rest, t.types = type :: rest ∧ type.Holds v ∧
      (positional rest).Holds values := by
  simp only [Holds, types_positional, forall₂_cons_right_iff]
  grind

theorem fits_concat {s t : TupleType} {other : Row} (hs : s.Fits row) (ht : t.Fits other) :
    (concat s t).Fits (row ++ other) :=
  fits_positional.2 (rel_append hs ht)

end TupleType

variable {t result : FieldType} {function : Expr} {type : TupleType} {rows out : Rows}
  {α : Type} {key : String} {f : Option α → Outcome α} {groups groups' : Groups α}
  {input output expected : TupleType} {row : Row} {keys : Nat}
  {keyTypes aggregateTypes : List FieldType} {w : Value} {a : Aggregate} {p : Primitive}

theorem FieldType.fits_row (h : t.fits v = true) : t.row.Fits v.fields := by
  cases t with
  | tuple fields => cases v with
    | tuple vs => exact fitsAll_iff.1 h
    | bool | int | float | array => simp [fits] at h
  | atomic k => cases v with
    | tuple vs => simp [fits, Kind.fits] at h
    | bool | int | float | array => exact fits_positional.2 (.cons h .nil)
  | array e => cases v with
    | array items => exact fits_positional.2 (.cons h .nil)
    | bool | int | float | tuple => simp [fits] at h

/-! ### Folds -/

/-- Whether a function of tuples with a single field, itself a tuple, returns that field alone. -/
def returnsBareTuple (expected : TupleType) : FieldType → Bool
  | .tuple fields => expected.types = [.tuple fields]
  | _ => false

/-- Whether an operator combines tuples by a function that returns their only field, a tuple,
alone. -/
def Primitive.returnsBareTuple (p : Primitive) (inputs : List TupleType) : Bool :=
  let bare (function : Expr) (type : TupleType) : Bool :=
    ((function.infer [type, type]).map (Dataflow.returnsBareTuple type)).toOption.getD false
  match p, inputs with
  | .reduce function, [input] => bare function input
  | .reduceByKey function, [input] => bare function (positional (input.types.drop 1))
  | _, _ => false

/-- The result of a fold has the fields of its tuples, unless it is their only field, a tuple. -/
theorem types_row_of_foldsTo (h : foldsTo expected result = true)
    (hbare : returnsBareTuple expected result = false) : result.row.types = expected.types := by
  cases result with
  | atomic | array =>
    simp only [foldsTo, Bool.false_or, beq_iff_eq] at h
    exact h.symm
  | tuple fields =>
    simp only [returnsBareTuple, decide_eq_false_iff_not] at hbare
    simpa [foldsTo, row, sameShape, hbare] using h

/-- Two rows of a type, combined by a fold of the type, are a row of the type. -/
theorem holds_of_combine {acc next : Row} (ht : function.infer [type, type] = .ok t)
    (htypes : t.row.types = type.types) (hacc : type.Holds acc) (hnext : type.Holds next)
    (h : combine function type acc next = .ok row) : type.Holds row := by
  simp only [combine, Expr.evalTyped, bind_eq_ok_iff] at h
  obtain ⟨v, hv, h⟩ := h
  cases h
  have hfits : t.row.Fits v.fields := fits_row
      (Expr.fits_of_eval (.cons hacc.fits (.cons hnext.fits .nil)) ht hv)
  rw [TupleType.Fits, htypes] at hfits
  exact holds_store hfits

theorem holds_of_reduceRows (ht : function.infer [type, type] = .ok t)
    (htypes : t.row.types = type.types) (hrows : ∀ row ∈ rows, type.Holds row)
    (h : reduceRows function type rows = .ok out) :
    ∀ row ∈ out, type.Holds row := by
  cases rows with
  | nil =>
    cases h
    simp
  | cons first rest =>
    simp only [reduceRows, bind_eq_ok_iff] at h
    obtain ⟨last, hlast, h⟩ := h
    cases h
    have : type.Holds last := by
      refine foldlM_ok_induction ?_ (hrows first mem_cons_self) hlast
      intro acc next row hnext hacc hrow
      exact holds_of_combine ht htypes hacc (hrows next (mem_cons_of_mem first hnext)) hrow
    simpa using this

/-! ### Groups -/

/-- Changing a group keeps the keys in order; a key without a group is put behind them. -/
theorem Groups.keys_update (h : groups.update key f = .ok groups') : groups'.map Prod.fst =
      if key ∈ groups.map Prod.fst then groups.map Prod.fst else groups.map Prod.fst ++ [key] := by
  induction groups generalizing groups' with
  | nil =>
    simp only [update, bind_eq_ok_iff] at h
    obtain ⟨a, -, h⟩ := h
    cases h
    simp
  | cons e rest ih =>
    obtain ⟨k, a⟩ := e
    unfold update at h
    split at h
    · next hk =>
      obtain ⟨b, -, h⟩ := bind_eq_ok_iff.1 h
      cases h
      simp [hk]
    · next hk =>
      obtain ⟨changed, hchanged, h⟩ := bind_eq_ok_iff.1 h
      cases h
      rw [map_cons, ih hchanged, map_cons]
      simp only [mem_cons, Ne.symm hk, false_or]
      split <;> rfl

theorem Groups.nodup_update (hnodup : (groups.map Prod.fst).Nodup)
    (h : groups.update key f = .ok groups') :
    (groups'.map Prod.fst).Nodup := by
  rw [keys_update h]
  split
  · exact hnodup
  · next hkey => exact nodup_append.2 ⟨hnodup, by simp, by rintro k hk _ hlast rfl; simp_all⟩

/-- What a change of a value keeps, the change of one group keeps of all groups. -/
theorem Groups.forall_update {P : String → α → Prop}
    (hf : ∀ a? b, (∀ a, a? = some a → P key a) → f a? = .ok b → P key b)
    (hgroups : ∀ e ∈ groups, P e.1 e.2) (h : groups.update key f = .ok groups') :
    ∀ e ∈ groups', P e.1 e.2 := by
  induction groups generalizing groups' with
  | nil =>
    simp only [update, bind_eq_ok_iff] at h
    obtain ⟨a, ha, h⟩ := h
    cases h
    simpa using hf none a (by simp) ha
  | cons e rest ih =>
    obtain ⟨k, a⟩ := e
    have ha : P k a := hgroups (k, a) mem_cons_self
    have hrest : ∀ e ∈ rest, P e.1 e.2 := fun e he => hgroups e (mem_cons_of_mem _ he)
    unfold update at h
    split at h
    · next hk =>
      subst hk
      rw [bind_eq_ok_iff] at h
      obtain ⟨b, hb, h⟩ := h
      cases h
      simpa using ⟨hf (some a) b (by simpa using ha) hb, fun k c hc => hrest (k, c) hc⟩
    · rw [bind_eq_ok_iff] at h
      obtain ⟨changed, hchanged, h⟩ := h
      cases h
      simpa using ⟨ha, fun k c hc => ih hrest hchanged (k, c) hc⟩

/-- The rows of each key, combined by a fold of their other fields, are rows of the type. -/
theorem holds_of_reduceByKeyRows
    (ht : function.infer [positional (type.types.drop 1),
      positional (type.types.drop 1)] = .ok t)
    (htypes : t.row.types = type.types.drop 1) (hrows : ∀ row ∈ rows, type.Holds row)
    (h : reduceByKeyRows function type rows = .ok out) : ∀ row ∈ out, type.Holds row := by
  simp only [reduceByKeyRows, bind_eq_ok_iff] at h
  obtain ⟨groups, hgroups, h⟩ := h
  cases h
  -- Every group holds a key and the values behind it, which together are a row of the type.
  have hall : ∀ e ∈ groups, type.Holds (e.2.1 :: e.2.2) := by
    refine foldlM_ok_induction (P := fun groups : Groups (Value × Row) =>
      ∀ e ∈ groups, type.Holds (e.2.1 :: e.2.2)) ?_ (by simp) hgroups
    intro groups row groups' hrow hgroups hstep
    have hheld := hrows row hrow
    cases row with
    | nil => cases hstep
    | cons key values =>
      refine Groups.forall_update (P := fun _ (a : Value × Row) => type.Holds (a.1 :: a.2))
        ?_ hgroups hstep
      intro a? b ha hb
      cases a? with
      | none =>
        cases hb
        exact hheld
      | some a =>
        obtain ⟨k, acc⟩ := a
        simp only [bind_eq_ok_iff] at hb
        obtain ⟨row, hrow, hb⟩ := hb
        cases hb
        obtain ⟨_, rest, hrest, hk, hacc⟩ := holds_cons_iff.1 (ha (k, acc) rfl)
        obtain ⟨_, rest', hrest', -, hvalues⟩ := holds_cons_iff.1 hheld
        obtain rfl : rest' = rest := (cons.inj (hrest'.symm.trans hrest)).2
        rw [hrest, drop_succ_cons, drop_zero] at ht htypes hrow
        refine holds_cons_iff.2 ⟨_, _, hrest, hk, ?_⟩
        exact holds_of_combine ht (by simpa using htypes) hacc hvalues hrow
  rintro _ hrow
  obtain ⟨e, he, rfl⟩ := List.mem_map.1 hrow
  exact hall e he

/-! ### Aggregates -/

namespace Accumulator

/-- The aggregates by a function that have the shape of a type: counts that of integers, all others
that of the numbers they have seen. -/
def Fits (fn : AggregateFn) (t : FieldType) : Accumulator → Prop
  | count _ => t = .atomic .int64
  | sum _ seen | least seen | greatest seen =>
    fn ≠ .count ∧ t.isNumeric = true ∧ ∀ v, seen = some v → t.fits v = true

variable {t : FieldType} {fn : AggregateFn}

theorem fits_value {acc : Accumulator} (h : acc.Fits fn t) : t.fits acc.value = true := by
  have hzero : t.isNumeric = true → t.fits (.int 0) = true := by
    intro hnum
    cases t with
    | atomic k => simpa [isNumeric, kind?, fits, Kind.fits] using hnum
    | tuple | array => simp [isNumeric, kind?] at hnum
  cases acc with
  | count rows =>
    cases h
    rfl
  | sum _ seen | least seen | greatest seen =>
    cases seen with
    | none => exact hzero h.2.1
    | some v => exact h.2.2 v rfl

theorem fits_start (kind : Option Kind) (h : a.type input = .ok t) :
    (start a kind).Fits a.fn t := by
  obtain ⟨fn, field⟩ := a
  cases fn with
  | count =>
    cases h
    rfl
  | sum | min | max => exact ⟨nofun, (Aggregate.type_eq_ok h nofun).1, nofun⟩

theorem fits_addTo {kind : Option Kind} {total : Option Value} (hv : t.fits v = true)
    (h : addTo kind total v = .ok w) : t.fits w = true := by
  cases total with
  | none => cases v <;> cases h <;> exact hv
  | some u =>
    -- The sum is of the sort of its last number, and the shape depends on the sort alone.
    cases u <;> cases v <;> cases h <;> cases t <;> exact hv

theorem fits_better {keep : Ordering} {best : Option Value}
    (hbest : ∀ u, best = some u → t.fits u = true) (hv : t.fits v = true)
    (h : better keep best v = .ok w) : t.fits w = true := by
  cases best with
  | none =>
    cases h
    exact hv
  | some old =>
    simp only [better, bind_eq_ok_iff] at h
    obtain ⟨o, -, h⟩ := h
    split at h
    · cases h
      exact hv
    · cases h
      exact hbest _ rfl

/-- One more row keeps the shape of an aggregate, if the field that it looks at is of its type. -/
theorem fits_update {value : Option Value} {acc acc' : Accumulator}
    (hvalue : fn ≠ .count → ∀ v, value = some v → t.fits v = true) (hacc : acc.Fits fn t)
    (h : acc.update value = .ok acc') : acc'.Fits fn t := by
  cases acc with
  | count rows =>
    cases h
    exact hacc
  | sum kind seen =>
    simp only [update, bind_eq_ok_iff, ofOption_eq_ok_iff] at h
    obtain ⟨v, hv, w, hw, h⟩ := h
    cases h
    refine ⟨hacc.1, hacc.2.1, fun u hu => ?_⟩
    cases hu
    exact fits_addTo (hvalue hacc.1 v hv) hw
  | least seen | greatest seen =>
    simp only [update, bind_eq_ok_iff, ofOption_eq_ok_iff] at h
    obtain ⟨v, hv, w, hw, h⟩ := h
    cases h
    refine ⟨hacc.1, hacc.2.1, fun u hu => ?_⟩
    cases hu
    exact fits_better hacc.2.2 (hvalue hacc.1 v hv) hw

/-- The aggregates that have the shape of the type of an aggregate of some tuples. -/
def FitsAggregate (input : TupleType) (a : Aggregate) (acc : Accumulator) : Prop :=
  ∀ t, a.type input = .ok t → acc.Fits a.fn t

/-- One more row keeps the shapes of the aggregates of a group. -/
theorem fits_updateAll (hrow : input.Holds row)
    {accs accs' : List Accumulator} (haccs : Forall₂ (FitsAggregate input) aggregates accs)
    (h : (aggregates.zip accs).mapM (fun (a, acc) => acc.update (a.field.bind (row[·]?))) =
      .ok accs') :
    Forall₂ (FitsAggregate input) aggregates accs' := by
  induction haccs generalizing accs' with
  | nil =>
    cases h
    exact .nil
  | @cons a acc aggregates accs hacc _ ih =>
    rw [zip_cons_cons, mapM_eq_ok_iff] at h
    cases h with
    | @cons _ acc' _ accs' hstep hrest =>
      refine .cons ?_ (ih (mapM_eq_ok_iff.2 hrest))
      intro t ht
      refine fits_update ?_ (hacc t ht) hstep
      intro hfn v hv
      obtain ⟨-, field, hfield, htype⟩ := Aggregate.type_eq_ok ht hfn
      obtain ⟨w, hw, hheld⟩ := hrow.get htype
      simp only [hfield, Option.bind_some, hw, Option.some.injEq] at hv
      exact hv ▸ hheld.fits

end Accumulator

theorem fits_fields {fields : Row} {positions : List Nat} {fault : Nat → ExecutionFault}
    (hrow : input.Holds row) (htypes : Forall₂ (fun p t => input.type? p = some t) positions types)
    (h : positions.mapM (fun p => Row.field row p (fault p)) = .ok fields) :
    Forall₂ (fun t v => fits t v = true) types fields := by
  rw [mapM_eq_ok_iff] at h
  induction htypes generalizing fields with
  | nil =>
    cases h
    exact .nil
  | @cons p t positions types ht _ ih =>
    cases h with
    | @cons _ v _ fields hv hfields =>
      rw [Row.field, ofOption_eq_ok_iff] at hv
      obtain ⟨w, hw, hheld⟩ := hrow.get ht
      rw [hw, Option.some.injEq] at hv
      exact .cons (hv ▸ hheld.fits) (ih hfields)

/-- A group whose key and aggregates have the shapes of their types. -/
def GroupFits (keyTypes : List FieldType) (input : TupleType) (aggregates : List Aggregate)
    (group : Row × List Accumulator) : Prop :=
  Forall₂ (fun t v => fits t v = true) keyTypes group.1 ∧
    Forall₂ (Accumulator.FitsAggregate input) aggregates group.2

/-- A row more keeps the shapes of the key and the aggregates of every group. -/
theorem fits_aggregateInto {keys : List Nat}
    (hkeys : Forall₂ (fun p t => input.type? p = some t) keys keyTypes) (hrow : input.Holds row)
    {groups groups' : Groups (Row × List Accumulator)}
    (hgroups : ∀ e ∈ groups, GroupFits keyTypes input aggregates e.2)
    (h : aggregateInto keys aggregates input groups row = .ok groups') :
    ∀ e ∈ groups', GroupFits keyTypes input aggregates e.2 := by
  simp only [aggregateInto, bind_eq_ok_iff] at h
  obtain ⟨key, hkey, h⟩ := h
  refine Groups.forall_update (P := fun _ => GroupFits keyTypes input aggregates) ?_ hgroups h
  intro a? b ha hb
  simp only [bind_eq_ok_iff] at hb
  obtain ⟨accs, haccs, hb⟩ := hb
  cases hb
  cases a? with
  | some a => exact ⟨(ha a rfl).1, Accumulator.fits_updateAll hrow (ha a rfl).2 haccs⟩
  | none =>
    refine ⟨fits_fields hrow hkeys hkey, Accumulator.fits_updateAll hrow ?_ haccs⟩
    rw [Option.getD_none, forall₂_map_right_iff, forall₂_same]
    intro a ha t ht
    exact Accumulator.fits_start _ ht

theorem fits_of_groupRows {keys : List Nat}
    (hkeys : Forall₂ (fun p t => input.type? p = some t) keys keyTypes)
    (haggregates : Forall₂ (fun a t => Aggregate.type input a = .ok t) aggregates aggregateTypes)
    (hrows : ∀ row ∈ rows, input.Holds row)
    (h : groupRows keys aggregates input rows = .ok out) :
    ∀ row ∈ out, (positional (keyTypes ++ aggregateTypes)).Fits row := by
  simp only [groupRows, bind_eq_ok_iff] at h
  obtain ⟨groups, hgroups, h⟩ := h
  cases h
  have hall : ∀ e ∈ groups, GroupFits keyTypes input aggregates e.2 := by
    refine foldlM_ok_induction (P := fun groups : Groups (Row × List Accumulator) =>
      ∀ e ∈ groups, GroupFits keyTypes input aggregates e.2) ?_ (by simp) hgroups
    intro groups row groups' hrow hgroups hstep
    exact fits_aggregateInto hkeys (hrows row hrow) hgroups hstep
  rintro _ hrow
  obtain ⟨⟨_, key, accs⟩, he, rfl⟩ := List.mem_map.1 hrow
  obtain ⟨hkey, haccs⟩ := hall _ he
  rw [fits_positional]
  refine rel_append hkey ?_
  clear * - haggregates haccs
  induction haggregates generalizing accs with
  | nil =>
    cases haccs
    exact .nil
  | cons ht _ ih =>
    cases haccs with
    | cons hacc haccs => exact .cons (Accumulator.fits_value (hacc _ ht)) (ih _ haccs)

/-! ### Operators -/

theorem fits_of_scanRow {addIndex : Bool} (harray : input.type? 0 = some (.array t))
    (hrow : input.Holds row) (h : scanRow addIndex row = .ok out) :
    ∀ item ∈ out, (if addIndex then concat (.scalar .int64)
      t.row else t.row).Fits item := by
  simp only [scanRow, bind_eq_ok_iff, ofOption_eq_ok_iff, Option.bind_eq_some_iff] at h
  obtain ⟨items, ⟨v, hv, hitems⟩, h⟩ := h
  cases h
  obtain ⟨w, hw, hheld⟩ := hrow.get harray
  obtain rfl : v = w := by simpa [head?_eq_getElem?, hw] using hv.symm
  obtain rfl : v = .array items := by cases v <;> simp_all [Value.array?]
  have hall := hheld.fits
  rw [fits, List.all_eq_true] at hall
  intro item hitem
  obtain ⟨i, hi, rfl⟩ := mem_mapIdx.1 hitem
  have hfields := fits_row (hall _ (getElem_mem hi))
  cases addIndex with
  | false => exact hfields
  | true => exact fits_concat (fits_positional.2 (.cons rfl .nil)) hfields

theorem mem_of_joinRows {left right : Rows} (h : joinRows keys left right = .ok out)
    (hrow : row ∈ out) : ∃ l ∈ left, ∃ r ∈ right, row = l ++ r.drop keys := by
  simp only [joinRows, bind_eq_ok_iff] at h
  obtain ⟨keyed, hkeyed, pairs, hpairs, h⟩ := h
  cases h
  obtain ⟨block, hblock, hrow⟩ := mem_flatten.1 hrow
  obtain ⟨l, hl, hl'⟩ := mem_of_mapM hpairs hblock
  simp only [bind_eq_ok_iff] at hl'
  obtain ⟨key, -, hl'⟩ := hl'
  cases hl'
  obtain ⟨⟨k, r⟩, hr, rfl⟩ := List.mem_map.1 hrow
  obtain ⟨r', hr', hk⟩ := mem_of_mapM hkeyed (mem_filter.1 hr).1
  simp only [bind_eq_ok_iff] at hk
  obtain ⟨_, -, hk⟩ := hk
  cases hk
  exact ⟨l, hl, r, hr', rfl⟩

theorem fits_of_joinRows {left right : TupleType} {ls rs : Rows} (hl : ∀ row ∈ ls, left.Holds row)
    (hr : ∀ row ∈ rs, right.Holds row) (h : joinRows keys ls rs = .ok out) :
    ∀ row ∈ out, (positional (left.types ++ right.types.drop keys)).Fits row := by
  intro row hrow
  obtain ⟨l, hlm, r, hrm, rfl⟩ := mem_of_joinRows h hrow
  exact fits_positional.2 (rel_append (hl l hlm).fits (forall₂_drop keys (hr r hrm).fits))

namespace Primitive

/-- What an operator with one input produces fits its output type. -/
theorem fits_of_runUnary {bound : Option (List TupleType)} (htype : HasType bound p [input] output)
    (hbare : p.returnsBareTuple [input] = false) (hrows : ∀ row ∈ rows, input.Holds row)
    (h : p.runUnary input rows = .ok out) : ∀ row ∈ out, output.Fits row := by
  cases htype with
  | rowScan array =>
    simp only [runUnary, bind_eq_ok_iff] at h
    obtain ⟨blocks, hblocks, h⟩ := h
    cases h
    intro item hitem
    obtain ⟨block, hblock, hitem⟩ := mem_flatten.1 hitem
    obtain ⟨row, hrow, hscan⟩ := mem_of_mapM hblocks hblock
    exact fits_of_scanRow array (hrows row hrow) hscan item hitem
  | filter =>
    obtain ⟨-, rfl⟩ := filterM_eq_ok_iff.1 h
    exact fun row hrow => (hrows row (mem_of_mem_filter hrow)).fits
  | map infers =>
    intro result hresult
    obtain ⟨row, hrow, hstep⟩ := mem_of_mapM h hresult
    simp only [bind_eq_ok_iff] at hstep
    obtain ⟨v, hv, hstep⟩ := hstep
    cases hstep
    exact fits_row (Expr.fits_of_eval (.cons (hrows row hrow).fits .nil) infers hv)
  | projection selects =>
    intro result hresult
    obtain ⟨row, hrow, hstep⟩ := mem_of_mapM h hresult
    exact fits_positional.2 (fits_fields (hrows row hrow) selects hstep)
  | reduce infers folds =>
    simp only [Primitive.returnsBareTuple, infers] at hbare
    have htypes := types_row_of_foldsTo folds hbare
    exact fun row hrow => (holds_of_reduceRows infers htypes hrows h row hrow).fits
  | reduceByKey _ _ infers folds =>
    simp only [Primitive.returnsBareTuple, infers] at hbare
    have htypes := (types_row_of_foldsTo folds hbare).trans (types_positional _)
    exact fun row hrow => (holds_of_reduceByKeyRows infers htypes hrows h row hrow).fits
  | groupBy hkeys haggregates =>
    exact fits_of_groupRows (hkeys.imp fun _ _ hkey => hkey.1) haggregates hrows h
  | partition =>
    intro result hresult
    obtain ⟨row, hrow, hstep⟩ := mem_of_mapM h hresult
    simp only [partitionRow, bind_eq_ok_iff] at hstep
    obtain ⟨i, -, hstep⟩ := hstep
    cases hstep
    exact fits_concat (fits_positional.2 (.cons rfl .nil)) (hrows row hrow).fits
  | materializeRowVector =>
    cases h
    intro result hresult
    obtain rfl := mem_singleton.1 hresult
    refine fits_positional.2 (.cons ?_ .nil)
    rw [fits, List.all_eq_true]
    intro item hitem
    obtain ⟨row, hrow, rfl⟩ := List.mem_map.1 hitem
    exact fitsAll_iff.2 (hrows row hrow).fits
  | ensureSingleTuple =>
    obtain rfl : rows = out := by
      simp only [runUnary] at h
      split at h
      · exact Except.ok.inj h
      · cases h
    exact fun row hrow => (hrows row hrow).fits

/-- **What an operator produces fits its output type.**  The rows of its inputs are held by their
types, the rows of a parameter are of the type of the parameter, and the operator is not a fold that
returns its only field, a tuple, alone. -/
theorem fits_of_run {operands : List Stream} {bound : Option (List TupleType)}
    {parameters : List Rows} (hout : p.outputType (operands.map (·.type)) bound = .ok output)
    (hbare : p.returnsBareTuple (operands.map (·.type)) = false)
    (hoperands : ∀ s ∈ operands, ∀ row ∈ s.rows, s.type.Holds row)
    (hparameters : ∀ n declared, p = .parameterLookup n declared → ∀ type rows,
      lookupType n declared bound = .ok type → parameters[n]? = some rows →
      ∀ row ∈ rows, type.admits row = true)
    (h : p.run operands parameters = .ok out) : ∀ row ∈ out, output.Fits row := by
  have htype := outputType_eq_ok_iff.1 hout
  have hlength : operands.length = p.inputs := (List.length_map _).symm.trans htype.length_eq
  -- The operators without inputs and with two inputs look at their operands in their own way.
  cases p with
  | range r =>
    obtain rfl := List.length_eq_zero_iff.1 hlength
    cases htype
    cases h
    intro row hrow
    obtain ⟨i, -, rfl⟩ := List.mem_map.1 hrow
    exact fits_positional.2 (.cons rfl .nil)
  | constantTuple values =>
    obtain rfl := List.length_eq_zero_iff.1 hlength
    cases htype
    cases h
    intro row hrow
    obtain rfl := mem_singleton.1 hrow
    rw [fits_positional, forall₂_map_left_iff, forall₂_map_right_iff, forall₂_same]
    intro value _
    cases value <;> rfl
  | parameterLookup n declared =>
    obtain rfl := List.length_eq_zero_iff.1 hlength
    cases htype with
    | parameterLookup lookup =>
      rw [run, ofOption_eq_ok_iff] at h
      exact fun row hrow =>
        fits_of_admits (hparameters n declared rfl output out lookup h row hrow)
  | join keys =>
    obtain ⟨left, right, rfl⟩ := length_eq_two.1 hlength
    cases htype
    exact fits_of_joinRows (hoperands left (by simp)) (hoperands right (by simp)) h
  | cartesian =>
    obtain ⟨left, right, rfl⟩ := length_eq_two.1 hlength
    cases htype
    cases h
    intro row hrow
    obtain ⟨l, hl, hrow⟩ := mem_flatMap.1 hrow
    obtain ⟨r, hr, rfl⟩ := List.mem_map.1 hrow
    exact fits_concat (hoperands left (by simp) l hl).fits
      (hoperands right (by simp) r hr).fits
  | _ =>
    obtain ⟨input, rfl⟩ := length_eq_one_iff.1 hlength
    exact fits_of_runUnary htype hbare (hoperands input (by simp)) h

end Primitive

end Dataflow
