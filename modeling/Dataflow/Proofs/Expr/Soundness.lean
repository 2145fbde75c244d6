/-
**Expressions keep their types.**

An expression of a type has values that fit the type, on all rows that fit the types of its
arguments. Integers may still be wider than the type says, since they are computed with 32 bits at
least; they are cut when the result is stored.

Main results:

* `Expr.induction` — induction along the expressions inside an expression;
* `Expr.fits_of_eval` — **a value of an expression fits its type**.
-/

import Dataflow.Expr.Eval
import Dataflow.Proofs.Outcome
import Dataflow.Proofs.Value.Storage

namespace Dataflow

open Option Outcome FieldType

/-! ### Operators -/

namespace Kind

theorem isNumeric_of_promote {a b k : Kind} (h : a.promote b = some k) : k.isNumeric = true := by
  revert h
  cases a <;> cases b <;> cases k <;> decide

theorem isFloat_of_promote {a b k : Kind} (hf : a.isFloat = true ∨ b.isFloat = true)
    (h : a.promote b = some k) : k.isFloat = true := by
  revert hf h
  cases a <;> cases b <;> cases k <;> decide

end Kind

/-- The sort of values that an operator makes of numbers: integers or doubles if it is arithmetic,
truth values if it is not. -/
def BinaryOp.Makes (op : BinaryOp) (number : Value → Prop) (v : Value) : Prop :=
  if op.isArithmetic then number v else ∃ b, v = .bool b

namespace BinaryOp

variable {op : BinaryOp} {v : Value} {a b k : Kind}

theorem makes_of_applyInt {l r : Int64} (h : op.applyInt l r = .ok v) :
    op.Makes (fun v => ∃ i, v = .int i) v := by
  cases op
  case div | rem =>
    simp only [applyInt] at h
    split at h
    · cases h
    · cases h
      exact ⟨_, rfl⟩
  all_goals cases h
  all_goals exact ⟨_, rfl⟩

theorem makes_of_applyFloat {l r : Float}
    (h : op.applyFloat l r = .ok v) : op.Makes (fun v => ∃ x, v = .float x) v := by
  cases op <;> cases h <;> exact ⟨_, rfl⟩

theorem not_isArithmetic_of_applyBool {l r : Bool} (h : op.applyBool l r = .ok v) :
    op.isArithmetic = false ∧ ∃ b, v = .bool b := by
  cases op <;> cases h <;> exact ⟨rfl, _, rfl⟩

theorem promote_of_resultKind (hop : op.isArithmetic = true)
    (h : op.resultKind a b = some k) : a.promote b = some k := by
  cases op <;> simp [isArithmetic, resultKind] at hop h <;> simp [h]

theorem eq_bool_of_resultKind (hop : op.isArithmetic = false) (h : op.resultKind a b = some k) :
    k = .bool := by
  cases op <;> simp [isArithmetic, resultKind] at hop h <;> simp [h]

/-- What an operator makes of numbers has the shape of its result kind, if its numbers have. -/
theorem fits_of_makes {number : Value → Prop} (hk : op.resultKind a b = some k)
    (hv : op.Makes number v) (hn : ∀ w, a.promote b = some k → number w → k.fits w = true) :
    k.fits v = true := by
  unfold Makes at hv
  split at hv
  · next hop => exact hn v (promote_of_resultKind hop hk) hv
  · next hop =>
    obtain ⟨c, rfl⟩ := hv
    rw [eq_bool_of_resultKind (by simpa using hop) hk]
    rfl

theorem fits_of_apply {l r : Value} (hk : op.resultKind a b = some k) (hl : a.fits l = true)
    (hr : b.fits r = true) (h : op.apply l r = .ok v) : k.fits v = true := by
  have hfloat : ∀ x y, (a.isFloat = true ∨ b.isFloat = true) → op.applyFloat x y = .ok v →
      k.fits v = true := by
    intro x y hab h
    refine fits_of_makes hk (makes_of_applyFloat h) ?_
    rintro _ hp ⟨z, rfl⟩
    exact Kind.isFloat_of_promote hab hp
  cases l with
  | int i => cases r with
    | int j =>
      refine fits_of_makes hk (makes_of_applyInt h) ?_
      rintro _ hp ⟨z, rfl⟩
      exact Kind.isNumeric_of_promote hp
    | float y => exact hfloat _ y (.inr hr) h
    | bool | tuple | array => simp [apply, Value.float?] at h
  | float x => cases r with
    | int j => exact hfloat x _ (.inl hl) h
    | float y => exact hfloat x y (.inl hl) h
    | bool | tuple | array => simp [apply, Value.float?] at h
  | bool c => cases r with
    | bool d =>
      obtain ⟨hop, e, rfl⟩ := not_isArithmetic_of_applyBool h
      rw [eq_bool_of_resultKind hop hk]
      rfl
    | int | float | tuple | array => simp [apply, Value.float?] at h
  | tuple | array => simp [apply, Value.float?] at h

end BinaryOp

namespace UnaryOp

theorem atomic_of_resultType {op : UnaryOp} {t u : FieldType} (h : op.resultType t = some u) :
    u = t ∧ ∃ k, t = .atomic k := by
  cases op with
  | not =>
    simp only [resultType, isBool, ite_none_right_eq_some,
      decide_eq_true_eq, some.injEq] at h
    exact ⟨h.2.symm, _, h.1⟩
  | neg =>
    simp only [resultType, ite_none_right_eq_some, some.injEq] at h
    refine ⟨h.2.symm, ?_⟩
    cases t with
    | atomic k => exact ⟨k, rfl⟩
    | tuple | array => simp [isNumeric, kind?] at h

theorem fits_of_apply {op : UnaryOp} {k : Kind} {w : Value} (hv : k.fits v = true)
    (h : op.apply v = .ok w) : k.fits w = true := by
  cases op <;> cases v <;> cases h <;> exact hv

end UnaryOp

namespace Expr

/-- What holds of an expression whenever it holds of the expressions inside it holds of every
expression. -/
theorem induction {P : Expr → Prop} (field : ∀ arg index, P (field arg index))
    (literal : ∀ value, P (literal value))
    (binary : ∀ op left right, P left → P right → P (binary op left right))
    (unary : ∀ op operand, P operand → P (unary op operand))
    (tuple : ∀ items, (∀ e ∈ items, P e) → P (tuple items)) : ∀ e, P e
  | .field arg index => field arg index
  | .literal value => literal value
  | .binary op left right =>
    binary op left right (induction field literal binary unary tuple left)
      (induction field literal binary unary tuple right)
  | .unary op operand => unary op operand (induction field literal binary unary tuple operand)
  | .tuple items => tuple items fun e _ => induction field literal binary unary tuple e

theorem inferAll_eq_mapM (args : List TupleType) (items : List Expr) :
    inferAll args items = items.mapM (infer args) := by
  induction items with
  | nil => rfl
  | cons e items ih => rw [inferAll, List.mapM_cons, ih]

theorem evalAll_eq_mapM (rows : List Row) (types : Option (List TupleType)) (items : List Expr) :
    evalAll rows types items = items.mapM (eval rows types) := by
  induction items with
  | nil => rfl
  | cons e items ih => rw [evalAll, List.mapM_cons, ih]

section

variable {args : List TupleType}

/-- **The cases of an expression that has a type**: it is a field that there is, a constant, an
operator that takes operands of their kinds, or a tuple of expressions that have types. -/
theorem infer_induction {motive : ∀ e t, infer args e = .ok t → Prop}
    (field : ∀ arg index t fields ht, args[arg]? = some fields → fields.type? index = some t →
      motive (field arg index) t ht)
    (literal : ∀ value ht, motive (literal value) (.atomic value.kind) ht)
    (binary : ∀ op left right a b k ht hl hr, op.resultKind a b = some k →
      motive left (.atomic a) hl → motive right (.atomic b) hr →
      motive (binary op left right) (.atomic k) ht)
    (unary : ∀ op operand k ht ho, op.resultType (.atomic k) = some (.atomic k) →
      motive operand (.atomic k) ho → motive (unary op operand) (.atomic k) ht)
    (tuple : ∀ items types ht, List.Forall₂ (fun e t => infer args e = .ok t) items types →
      (∀ e ∈ items, ∀ t h, motive e t h) →
      motive (tuple items) (.tuple (TupleType.positional types)) ht)
    (e : Expr) (t : FieldType) (h : infer args e = .ok t) : motive e t h := by
  induction e using induction generalizing t with
  | field arg index =>
    obtain ⟨fields, hfields, htype⟩ := bind_eq_some_iff.1 (ofOption_eq_ok_iff.1 h)
    exact field arg index t fields h hfields htype
  | literal value =>
    obtain rfl : atomic value.kind = t := Except.ok.inj h
    exact literal value h
  | binary op left right ihl ihr =>
    have hparts := h
    simp only [infer, bind_eq_ok_iff, ofOption_eq_ok_iff, BinaryOp.resultType, bind_eq_bind,
      bind_eq_some_iff, Option.pure_def, some.injEq] at hparts
    obtain ⟨lt, hl, rt, hr, a, ha, b, hb, k, hk, rfl⟩ := hparts
    obtain rfl : lt = .atomic a := by cases lt <;> simp_all [kind?]
    obtain rfl : rt = .atomic b := by cases rt <;> simp_all [kind?]
    exact binary op left right a b k h hl hr hk (ihl _ hl) (ihr _ hr)
  | unary op operand ih =>
    obtain ⟨u, hu, ht⟩ := bind_eq_ok_iff.1 h
    obtain ⟨rfl, k, rfl⟩ := UnaryOp.atomic_of_resultType (ofOption_eq_ok_iff.1 ht)
    exact unary op operand k h hu (ofOption_eq_ok_iff.1 ht) (ih _ hu)
  | tuple items ih =>
    obtain ⟨types, htypes, ht⟩ := bind_eq_ok_iff.1 h
    obtain rfl := Except.ok.inj ht
    exact tuple items types h (mapM_eq_ok_iff.1 (inferAll_eq_mapM args items ▸ htypes)) ih

end

variable {args : List TupleType}

theorem fits_narrow {e : Expr} {k : Kind} {w : Value} (hv : k.fits v = true)
    (h : narrow (some args) e v = .ok w) : k.fits w = true := by
  cases v with
  | int i =>
    simp only [narrow, bind_eq_ok_iff, pure_eq_ok, Except.ok.injEq] at h
    obtain ⟨t, -, rfl⟩ := h
    exact hv
  | bool | float | tuple | array => cases h; exact hv

/-- **A value of an expression fits its type**, on rows that fit the types of the arguments. -/
theorem fits_of_eval {rows : List Row} (hrows : List.Forall₂ TupleType.Fits args rows)
    {e : Expr} {t : FieldType} (ht : e.infer args = .ok t)
    (hv : e.eval rows (some args) = .ok v) : t.fits v = true := by
  induction e, t, ht using infer_induction generalizing v with
  | field arg index t type _ htype hindex =>
    obtain ⟨row, hrow, hvalue⟩ := bind_eq_some_iff.1 (ofOption_eq_ok_iff.1 hv)
    have hfits : type.Fits row := forall₂_getElem? hrows htype hrow
    rw [TupleType.Fits] at hfits
    exact forall₂_getElem? hfits (by simpa [TupleType.types, TupleType.type?] using hindex) hvalue
  | literal value =>
    cases hv
    cases value <;> rfl
  | binary op left right a b k _ _ _ hk ihl ihr =>
    rw [eval, bind_eq_ok_iff] at hv
    obtain ⟨l, hl, hv⟩ := hv
    split at hv
    · next hop =>
      -- The operators that combine truth values give a truth value however they were decided.
      have hbool : k = .bool := by
        refine BinaryOp.eq_bool_of_resultKind ?_ hk
        cases op <;> simp_all [BinaryOp.isLogical, BinaryOp.isArithmetic]
      subst hbool
      rw [bind_eq_ok_iff] at hv
      obtain ⟨c, -, hv⟩ := hv
      split at hv
      · cases hv
        rfl
      · simp only [bind_eq_ok_iff] at hv
        obtain ⟨r, hr, d, hd, hv⟩ := hv
        cases hv
        rfl
    · simp only [bind_eq_ok_iff] at hv
      obtain ⟨r, hr, w, hw, hv⟩ := hv
      exact fits_narrow (BinaryOp.fits_of_apply hk (ihl hl) (ihr hr) hw) hv
  | unary op operand k _ _ _ ih =>
    simp only [eval, bind_eq_ok_iff] at hv
    obtain ⟨w, hw, x, hx, hv⟩ := hv
    exact fits_narrow (UnaryOp.fits_of_apply (ih hw) hx) hv
  | tuple items types _ htypes ih =>
    simp only [eval, evalAll_eq_mapM, bind_eq_ok_iff, mapM_eq_ok_iff] at hv
    obtain ⟨values, hvalues, hv⟩ := hv
    cases hv
    rw [fits, fitsAll_iff, ← TupleType.types, TupleType.types_positional]
    clear * - htypes hvalues ih
    induction htypes generalizing values with
    | nil =>
      cases hvalues
      exact .nil
    | @cons e t items types he _ ihs =>
      cases hvalues with
      | @cons _ v _ values hv hvs =>
        exact .cons (ih e List.mem_cons_self t he hv)
          (ihs (fun e he => ih e (List.mem_cons_of_mem _ he)) values hvs)

end Expr

end Dataflow
