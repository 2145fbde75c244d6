/-
**What typed expressions compute.**

Typing an expression rules out all failures but one: dividing an integer by zero.  So an expression
of a type has a value on all rows of the types of its arguments, or it divides by zero there.  The
value is of the type once it is stored, and an integer is within the width at which it was computed,
which is that of its kind but 32 bits at least.  An expression that divides nothing always has a
value, and a predicate that divides nothing decides on every row.

Main results:

* `Expr.exists_eval` — **an expression without divisions has a value**;
* `exists_passes` — a predicate without divisions decides on every row;
* `Expr.failsOnly_eval` — an expression that has a type fails for a division by zero only;
* `Expr.holds_of_eval` — integers are within the width at which they are computed;
* `Expr.evalTyped_sound` — **an expression of a type has a value of the type, or divides by zero**.
-/

import Dataflow.Proofs.Evaluation.Operators
import Mathlib

namespace Dataflow

open List Option Outcome TupleType

variable {k : Kind} {v : Value} {rows : List Row} {e : Expr} {i : Int64}
  {args : List TupleType} {t : TupleType} {row : Row}

theorem Kind.number_of_fits (hk : k.isNumeric = true) (hv : k.fits v = true) :
    (∃ i, v = .int i) ∨ ∃ x, v = .float x := by
  cases v with
  | int i => exact .inl ⟨i, rfl⟩
  | float x => exact .inr ⟨x, rfl⟩
  | bool c =>
    obtain rfl : k = .bool := by simpa [Kind.fits] using hv
    cases hk
  | tuple | array => cases hv

namespace BinaryOp

/-- Whether an operator divides its operands. -/
def divides (op : BinaryOp) : Bool := op = div || op = rem

variable {op : BinaryOp} {a b k : Kind}

/-- Integers fail to combine where one is divided by zero only. -/
theorem failsOnly_applyInt (hlogical : op.isLogical = false) (l r : Int64) :
    (op.applyInt l r).FailsOnly fun failure => failure = .execution .divisionByZero ∧
      op.divides = true := by
  cases op
  case and | or => cases hlogical
  case div | rem => exact .ite (.error ⟨rfl, rfl⟩) (.ok _)
  all_goals exact .ok _

theorem failsOnly_applyFloat (hlogical : op.isLogical = false) {P : Failure → Prop} (l r : Float) :
    (op.applyFloat l r).FailsOnly P := by
  cases op
  case and | or => cases hlogical
  all_goals exact .ok _

theorem isNumeric_of_promote (h : a.promote b = some k) :
    a.isNumeric = true ∧ b.isNumeric = true := by
  rw [Kind.promote] at h
  split at h
  · cases h
  · next hnumeric => simpa using hnumeric

/-- Operators combine numbers, or truth values; of these they only compare whether they are equal,
if they are not logical. -/
theorem operands_of_resultKind (h : op.resultKind a b = some k)
    (hlogical : op.isLogical = false) : (a.isNumeric = true ∧ b.isNumeric = true) ∨
      (a = .bool ∧ b = .bool ∧ (op = .eq ∨ op = .ne)) := by
  cases op
  case and | or => cases hlogical
  case add | sub | mul | div => exact .inl (isNumeric_of_promote h)
  case rem =>
    rw [resultKind, ite_none_right_eq_some] at h
    exact .inl (isNumeric_of_promote h.2)
  case eq | ne =>
    rw [resultKind, ite_none_right_eq_some] at h
    rcases h.1 with hbool | hnumeric
    · exact .inr ⟨hbool.1, hbool.2, by simp⟩
    · exact .inl hnumeric
  all_goals
    rw [resultKind, ite_none_right_eq_some, Bool.and_eq_true] at h
    exact .inl h.1

/-- **An operator combines values of two kinds for which it has a result kind**, unless it divides
by zero. -/
theorem failsOnly_apply {l r : Value} (hk : op.resultKind a b = some k) (hl : a.fits l = true)
    (hr : b.fits r = true) (hlogical : op.isLogical = false) :
    (op.apply l r).FailsOnly fun failure => failure = .execution .divisionByZero ∧
      op.divides = true := by
  rcases operands_of_resultKind hk hlogical with ⟨ha, hb⟩ | ⟨rfl, rfl, hop⟩
  · rcases Kind.number_of_fits ha hl with ⟨i, rfl⟩ | ⟨x, rfl⟩ <;>
      rcases Kind.number_of_fits hb hr with ⟨j, rfl⟩ | ⟨y, rfl⟩
    · exact failsOnly_applyInt hlogical i j
    · exact failsOnly_applyFloat hlogical _ y
    · exact failsOnly_applyFloat hlogical x _
    · exact failsOnly_applyFloat hlogical x y
  · have hbool : ∀ {v : Value}, Kind.bool.fits v = true → ∃ c, v = .bool c := by
      intro v hv
      cases v with
      | bool c => exact ⟨c, rfl⟩
      | _ => cases hv
    obtain ⟨c, rfl⟩ := hbool hl
    obtain ⟨d, rfl⟩ := hbool hr
    rcases hop with rfl | rfl <;> exact .ok _

end BinaryOp

theorem UnaryOp.exists_apply {op : UnaryOp} {u : FieldType}
    (hu : op.resultType (.atomic k) = some u) (hv : k.fits v = true) : ∃ w, op.apply v = .ok w := by
  cases v with
  | tuple | array => cases hv
  | bool b => cases op with
    | not => exact ⟨_, rfl⟩
    | neg =>
      obtain rfl : k = .bool := by simpa [Kind.fits] using hv
      cases hu
  | int | float => cases op with
    | neg => exact ⟨_, rfl⟩
    | not =>
      obtain rfl : k = .bool := by
        simp only [resultType, FieldType.isBool, ite_none_right_eq_some, decide_eq_true_eq] at hu
        cases hu.1
        rfl
      cases hv

namespace Expr

mutual

/-- Whether an expression has a quotient or a remainder in it. -/
def divides : Expr → Bool
  | field _ _ => false
  | literal _ => false
  | binary op left right => op.divides || left.divides || right.divides
  | unary _ operand => operand.divides
  | tuple items => dividesAny items

/-- Whether one of some expressions has a quotient or a remainder in it. -/
def dividesAny : List Expr → Bool
  | [] => false
  | e :: rest => e.divides || dividesAny rest

end

variable {e : Expr} {args : List TupleType} {t : FieldType}

theorem divides_tuple_of_mem {items : List Expr} (he : e ∈ items) (h : e.divides = true) :
    (tuple items).divides = true := by
  rw [divides]
  induction items with
  | nil => cases he
  | cons first items ih =>
    rw [dividesAny, Bool.or_eq_true]
    rcases mem_cons.1 he with rfl | he
    · exact .inl h
    · exact .inr (ih he)

theorem exists_narrow (ht : e.infer args = .ok t) (v : Value) :
    ∃ w, narrow (some args) e v = .ok w := by
  cases v with
  | int i => exact ⟨_, by rw [narrow, ht, ok_bind]; rfl⟩
  | _ => exact ⟨_, rfl⟩

theorem exists_truth (hv : Kind.bool.fits v = true) : ∃ b, v.truth = .ok b := by
  cases v with
  | bool b => exact ⟨b, rfl⟩
  | _ => cases hv

/-- **An expression that has a type fails for a division by zero only**, on rows that fit the types
of its arguments. -/
theorem failsOnly_eval (hrows : Forall₂ TupleType.Fits args rows) (ht : e.infer args = .ok t) :
    (e.eval rows (some args)).FailsOnly fun failure =>
      failure = .execution .divisionByZero ∧ e.divides = true := by
  have hvalue : ∀ {α : Type} {x : Outcome α} {P : Failure → Prop},
      (∃ a, x = .ok a) → x.FailsOnly P := by
    rintro α _ P ⟨a, rfl⟩
    exact .ok a
  induction e, t, ht using infer_induction with
  | field arg index t type _ htype hindex =>
    obtain ⟨row, hrow, hfits⟩ := exists_of_forall₂ hrows htype
    rw [TupleType.Fits] at hfits
    obtain ⟨v, hv, -⟩ :=
      exists_of_forall₂ hfits (by simpa [types, type?] using hindex)
    rw [eval, hrow, bind_some, hv, ofOption_some]
    exact .ok _
  | literal value => exact .ok _
  | binary op left right a b k hwhole hlt hrt hk ihl ihr =>
    rw [eval]
    refine .bind (ihl.imp fun _ h => ⟨h.1, by simp [divides, h.2]⟩) fun l hl => ?_
    have hright := ihr.imp fun _ h =>
      (⟨h.1, by simp [divides, h.2]⟩ : _ ∧ (binary op left right).divides = true)
    have hlfits : a.fits l = true := fits_of_eval hrows hlt hl
    cases hlogical : op.isLogical with
    | false =>
      refine hright.bind fun r hr => ?_
      have happly := BinaryOp.failsOnly_apply hk hlfits (fits_of_eval hrows hrt hr) hlogical
      exact .bind (happly.imp fun _ h => ⟨h.1, by simp [divides, h.2]⟩) fun v _ =>
        hvalue (exists_narrow hwhole v)
    | true =>
      -- The right operand is looked at only if the left one does not decide.
      have hbool : a = .bool ∧ b = .bool := by
        cases op <;> simp_all [BinaryOp.isLogical, BinaryOp.resultKind]
      obtain ⟨rfl, rfl⟩ := hbool
      refine (hvalue (exists_truth hlfits)).bind fun c _ => .ite (.ok _) ?_
      refine hright.bind fun r hr => ?_
      exact (hvalue (exists_truth (fits_of_eval hrows hrt hr))).bind fun d _ => .ok _
  | unary op operand k hwhole hu ht ih =>
    rw [eval]
    refine ih.bind fun v hv => ?_
    exact (hvalue (UnaryOp.exists_apply ht (fits_of_eval hrows hu hv))).bind fun w _ =>
      hvalue (exists_narrow hwhole w)
  | tuple items types _ htypes ih =>
    rw [eval, evalAll_eq_mapM]
    refine Outcome.FailsOnly.bind (.mapM fun e he => ?_) fun values _ => .ok _
    obtain ⟨i, hi⟩ := mem_iff_getElem?.1 he
    obtain ⟨t, -, ht⟩ := exists_of_forall₂ htypes hi
    exact (ih e he t ht).imp fun _ h => ⟨h.1, divides_tuple_of_mem he h.2⟩

/-- **An expression without divisions has a value**, on rows that fit the types of its arguments. -/
theorem exists_eval (hrows : Forall₂ TupleType.Fits args rows) (ht : e.infer args = .ok t)
    (hdivides : e.divides = false) : ∃ v, e.eval rows (some args) = .ok v := by
  cases hv : e.eval rows (some args) with
  | ok v => exact ⟨v, rfl⟩
  | error failure =>
    have hfails := (failsOnly_eval hrows ht failure hv).2
    rw [hdivides] at hfails
    cases hfails

end Expr

theorem passes_of_evalTyped (ht : e.infer [t] = .ok (.atomic .bool))
    (hrow : t.Fits row) (hv : e.evalTyped [t] [row] = .ok v) : ∃ b, passes e t row = .ok b := by
  obtain ⟨b, hb⟩ := Expr.exists_truth (Expr.fits_of_eval (.cons hrow .nil) ht hv)
  rw [Value.truth, ofOption_eq_ok_iff] at hb
  exact ⟨b, by rw [passes, hv, ok_bind, hb, ofOption_some]⟩

/-- A predicate without divisions decides on every row of its type. -/
theorem exists_passes (ht : e.infer [t] = .ok (.atomic .bool))
    (hdivides : e.divides = false) (hrow : t.admits row = true) : ∃ b, passes e t row = .ok b := by
  have hfits := fits_of_admits hrow
  obtain ⟨v, hv⟩ := Expr.exists_eval (.cons hfits .nil) ht hdivides
  exact passes_of_evalTyped ht hfits hv

/-! ### Divisions and widths -/

namespace Kind

theorem promote_int32 (hk : k.isInteger = true) : k.promote .int32 = some (k.wider .int32) := by
  cases k <;> first | rfl | cases hk

theorem isInteger_wider (k : Kind) : (k.wider .int32).isInteger = true := by
  cases k <;> rfl

/-- An integer of a kind is one of the wider of this kind and 32 bits. -/
theorem holds_wider (h : k.holds i = true) : (k.wider .int32).holds i = true := by
  rw [holds_iff] at h ⊢
  obtain ⟨hk, hwrap⟩ := h
  cases k with
  | int8 | int16 =>
    rw [wrap] at hwrap
    rw [← hwrap]
    exact ⟨rfl, by simp [wrap, wider, bits?]⟩
  | int32 | int64 => exact ⟨hk, hwrap⟩
  | bool | float32 | float64 => cases hk

theorem int_of_fits (hk : k.isInteger = true) (hv : k.fits v = true) : ∃ i, v = .int i := by
  rcases number_of_fits (by rw [isNumeric, hk, Bool.true_or]) hv with hint | ⟨x, rfl⟩
  · exact hint
  · rw [fits] at hv
    cases k <;> simp [isInteger, bits?, isFloat] at hk hv

end Kind

namespace Expr

/-- An integer that was computed at the width of an integer kind is within the wider of this kind
and 32 bits. -/
theorem holds_narrow (ht : e.infer args = .ok (.atomic k)) (hk : k.isInteger = true)
    (h : narrow (some args) e v = .ok (.int i)) : (k.wider .int32).holds i = true := by
  cases v with
  | int j =>
    simp only [narrow, ht, ok_bind, FieldType.computeKind?, FieldType.kind?, bind_some,
      Kind.promote_int32 hk, pure_eq_ok, Except.ok.injEq, Value.int.injEq] at h
    exact h ▸ Kind.holds_wrap k.isInteger_wider j
  | _ => cases h

/-- **Integers are within the width at which they are computed**: that of their kind, and 32 bits at
least. -/
theorem holds_of_eval
    (hrows : Forall₂ (fun t row => admits t row = true) args rows)
    (ht : e.infer args = .ok (.atomic k)) (hk : k.isInteger = true)
    (hv : e.eval rows (some args) = .ok (.int i)) : (k.wider .int32).holds i = true := by
  cases e with
  | field arg index =>
    simp only [infer, eval, ofOption_eq_ok_iff, bind_eq_some_iff] at ht hv
    obtain ⟨type, htype, hindex⟩ := ht
    obtain ⟨row, hrow, hvalue⟩ := hv
    have hadmits := admits_iff.1 (forall₂_getElem? hrows htype hrow)
    have hfield : FieldType.admits (.atomic k) (.int i) = true :=
      forall₂_getElem? hadmits (by simpa [types, type?] using hindex) hvalue
    exact Kind.holds_wider (by simpa [FieldType.admits, Kind.admits] using hfield)
  | literal value =>
    cases ht
    cases value with
    | int j => exact Kind.holds_wrap (k := .int64) rfl i
    | bool | float => cases hk
  | binary op left right =>
    simp only [eval, bind_eq_ok_iff] at hv
    obtain ⟨l, -, hv⟩ := hv
    split at hv
    · -- What the logical operators decide is no integer.
      simp only [bind_eq_ok_iff] at hv
      obtain ⟨c, -, hv⟩ := hv
      split at hv
      · cases hv
      · simp only [bind_eq_ok_iff] at hv
        obtain ⟨r, -, d, -, hv⟩ := hv
        cases hv
    · simp only [bind_eq_ok_iff] at hv
      obtain ⟨r, -, v, -, hv⟩ := hv
      exact holds_narrow ht hk hv
  | unary op operand =>
    simp only [eval, bind_eq_ok_iff] at hv
    obtain ⟨u, -, v, -, hv⟩ := hv
    exact holds_narrow ht hk hv
  | tuple items =>
    simp only [infer, bind_eq_ok_iff] at ht
    obtain ⟨types, -, ht⟩ := ht
    cases ht

/-- **An expression of a type has a value of the type, or divides by zero**, on all rows of the
types of its arguments: the value is of the type once it is stored, and an integer of an integer
kind is within the wider of that kind and 32 bits already before. -/
theorem evalTyped_sound {types : List TupleType} {rows : List Row}
    (hrows : Forall₂ (fun t row => admits t row = true) types rows)
    {e : Expr} {t : FieldType} (ht : e.infer types = .ok t) :
    (e.evalTyped types rows = .error (.execution .divisionByZero) ∧
        ExecutionFault.divisionByZero.message = "integer division by zero") ∨
      ∃ v, e.evalTyped types rows = .ok v ∧ t.admits (t.store v) = true ∧
        ∀ k, t = .atomic k → k.isInteger = true → ∃ i, v = .int i ∧
        (k.wider .int32).holds i = true := by
  have hfits : Forall₂ TupleType.Fits types rows :=
    hrows.imp fun _ _ h => fits_of_admits h
  cases hv : e.evalTyped types rows with
  | error failure =>
    obtain ⟨rfl, -⟩ := failsOnly_eval hfits ht failure hv
    exact .inl ⟨rfl, rfl⟩
  | ok v =>
    have hvalue := fits_of_eval hfits ht hv
    refine .inr ⟨v, rfl, FieldType.admits_store hvalue, ?_⟩
    rintro k rfl hk
    obtain ⟨i, rfl⟩ := Kind.int_of_fits hk hvalue
    exact ⟨i, rfl, holds_of_eval hrows ht hk hv⟩

/-- Twice the first byte, divided by the second one. -/
def doubledShare : Expr := .binary .div (.binary .add (.field 0 0) (.field 0 0)) (.field 1 0)

/-- The sum of two bytes is no byte before it is stored, and a divisor may be zero. -/
theorem doubledShare_evalTyped :
    let byte := scalar .int8
    doubledShare.infer [byte, byte] = .ok (.atomic .int8) ∧
    (∃ i, doubledShare.evalTyped [byte, byte] [[.int 100], [.int 1]] = .ok (.int i) ∧
      Kind.int8.holds i = false ∧ Kind.int32.holds i = true ∧
      FieldType.admits (.atomic .int8) (FieldType.store (.atomic .int8) (.int i)) = true) ∧
    doubledShare.evalTyped [byte, byte] [[.int 100], [.int 0]] =
      .error (.execution .divisionByZero) := by
  intro byte
  have ht : doubledShare.infer [byte, byte] = .ok (.atomic .int8) := by cbv
  have hone : doubledShare.evalTyped [byte, byte] [[.int 100], [.int 1]] = .ok (.int 200) := by cbv
  have hrows : ∀ i, Kind.int8.holds i = true → Forall₂ (fun t row => admits t row = true)
      [byte, byte] [[.int 100], [.int i]] := by
    intro i hi
    refine .cons (by cbv) (.cons ?_ .nil)
    simpa [byte, scalar, positional, positionalFrom, admits,
      FieldType.admitsAll, FieldType.admits, Kind.admits] using hi
  refine ⟨ht, ?_, ?_⟩
  · rcases evalTyped_sound (hrows 1 (by decide)) ht with ⟨hzero, -⟩ | ⟨v, hv, hadmits, hint⟩
    · rw [hone] at hzero
      cases hzero
    · obtain ⟨i, rfl, hi⟩ := hint .int8 rfl rfl
      obtain rfl : 200 = i := by simpa [hone] using hv
      exact ⟨200, hone, by decide, hi, hadmits⟩
  · rcases evalTyped_sound (hrows 0 (by decide)) ht with ⟨hzero, -⟩ | ⟨v, hv, -⟩
    · exact hzero
    · have hdivides : (doubledShare.evalTyped [byte, byte] [[.int 100], [.int 0]]).toOption.isNone =
          true := by
        cbv
      rw [hv] at hdivides
      cases hdivides

end Expr

end Dataflow
