/-
**Type rules of operators.**

The output type of an operator is found step by step, and the first step that fails says what is
wrong with its inputs. Here the same is said by rules, one for each operator: what it asks of the
types of its inputs, and what it makes of them.  Later proofs go by the rules and never open the
steps.

Main results:

* `Primitive.HasType` — the rules;
* `Primitive.outputType_eq_ok_iff` — **an operator has exactly the types that the rules give it**.
-/

import Dataflow.Proofs.Outcome
import Dataflow.Typing.Primitive

namespace Dataflow

open List Outcome

variable {input output left right t u : TupleType} {type result : FieldType} {n keys : Nat}
  {positions : List Nat} {declared : Option TupleType} {inputs : List TupleType}
  {bound : Option (List TupleType)}

/-! ### Steps -/

theorem Operator.length_of_checkArity {op : Operator} (h : op.checkArity inputs = .ok ()) :
    inputs.length = op.inputs := by
  unfold checkArity at h
  split at h
  · assumption
  · cases h

theorem checkFold_eq_ok_iff : checkFold t result = .ok () ↔ foldsTo t result = true := by
  unfold checkFold
  split <;> simp_all

theorem declared_of_lookupType (h : lookupType n declared none = .ok t) : declared = some t := by
  cases declared with
  | none => cases h
  | some declared =>
    cases h
    rfl

theorem bound_of_lookupType (h : lookupType n declared (some inputs) = .ok t) :
    inputs[n]? = some t := by
  simp only [lookupType, bind_eq_ok_iff, ofOption_eq_ok_iff] at h
  obtain ⟨input, hinput, h⟩ := h
  cases declared with
  | none =>
    cases h
    exact hinput
  | some declared =>
    simp only at h
    split at h
    · cases h
      exact hinput
    · cases h

theorem element?_eq_some_iff {element : FieldType} :
    type.element? = some element ↔ type = .array element := by
  cases type <;> simp [FieldType.element?]

theorem groupKeyType_eq_ok_iff {key : Nat} :
    groupKeyType input key = .ok type ↔ input.type? key = some type ∧ type.isAtomic = true := by
  simp only [groupKeyType, bind_eq_ok_iff, ofOption_eq_ok_iff]
  constructor
  · rintro ⟨found, hfound, h⟩
    split at h
    · next hatomic =>
      cases h
      exact ⟨hfound, hatomic⟩
    · cases h
  · rintro ⟨hfound, hatomic⟩
    exact ⟨type, hfound, if_pos hatomic⟩

/-- The type of an aggregate other than a count is the type of its field, which holds numbers. -/
theorem Aggregate.type_eq_ok {a : Aggregate} (h : a.type input = .ok type) (hfn : a.fn ≠ .count) :
    type.isNumeric = true ∧ ∃ field, a.field = some field ∧ input.type? field = some type := by
  simp only [Aggregate.type, if_neg hfn, bind_eq_ok_iff, ofOption_eq_ok_iff] at h
  obtain ⟨field, hfield, found, hfound, h⟩ := h
  split at h
  · next hnum =>
    cases h
    exact ⟨hnum, field, hfield, hfound⟩
  · cases h

theorem joinType_eq_ok_iff : joinType keys left right = .ok output ↔
      ¬(left.length < keys ∨ right.length < keys) ∧
      checkKeys 0 (left.types.take keys) (right.types.take keys) = .ok () ∧
      output = TupleType.positional (left.types ++ right.types.drop keys) := by
  simp only [joinType, guard_eq_ok_iff, bind_eq_ok_iff, pure_eq_ok,
    Except.ok.injEq, exists_and_right, eq_comm (a := output)]
  exact ⟨fun ⟨h, ⟨_, hk⟩, ho⟩ => ⟨h, hk, ho⟩, fun ⟨h, hk, ho⟩ => ⟨h, ⟨_, hk⟩, ho⟩⟩

theorem select_eq_ok_iff : t.select positions = .ok u ↔
      ∃ types, Forall₂ (fun p type => t.type? p = some type) positions types ∧
      u = TupleType.positional types := by
  simp only [TupleType.select, bind_eq_ok_iff, mapM_eq_ok_iff, ofOption_eq_ok_iff,
    pure_eq_ok, Except.ok.injEq, eq_comm (a := u)]

/-! ### Rules -/

namespace Primitive

variable {p : Primitive}

/-- The types of the inputs and the output of an operator. -/
inductive HasType (bound : Option (List TupleType)) :
    Primitive → (inputs : List TupleType) → TupleType → Prop
  | range {r : Range} : HasType bound (range r) [] (.scalar .int64)
  | constantTuple {values : List Literal} :
      HasType bound (constantTuple values) [] (.positional (values.map (.atomic ·.kind)))
  | parameterLookup {n : Nat} {declared : Option TupleType} {t : TupleType}
      (lookup : lookupType n declared bound = .ok t) :
      HasType bound (parameterLookup n declared) [] t
  | rowScan {addIndex : Bool} {input : TupleType} {element : FieldType}
      (array : input.type? 0 = some (.array element)) : HasType bound (rowScan addIndex) [input]
        (if addIndex then .concat (.scalar .int64) element.row else element.row)
  | filter {predicate : Expr} {input : TupleType}
      (decides : predicate.infer [input] = .ok (.atomic .bool)) :
      HasType bound (filter predicate) [input] input
  | map {function : Expr} {input : TupleType} {result : FieldType}
      (infers : function.infer [input] = .ok result) :
      HasType bound (map function) [input] result.row
  | projection {positions : List Nat} {input : TupleType} {types : List FieldType}
      (selects : Forall₂ (fun p type => input.type? p = some type) positions types) :
      HasType bound (projection positions) [input] (.positional types)
  | reduce {function : Expr} {input : TupleType} {result : FieldType}
      (infers : function.infer [input, input] = .ok result) (folds : foldsTo input result = true) :
      HasType bound (reduce function) [input] input
  | reduceByKey {function : Expr} {input : TupleType} {key result : FieldType}
      (hkey : input.type? 0 = some key) (atomic : key.isAtomic = true)
      (infers : function.infer [.positional (input.types.drop 1),
        .positional (input.types.drop 1)] = .ok result)
      (folds : foldsTo (.positional (input.types.drop 1)) result = true) :
      HasType bound (reduceByKey function) [input] input
  | groupBy {keys : List Nat} {aggregates : List Aggregate} {input : TupleType}
      {keyTypes types : List FieldType}
      (hkeys : Forall₂ (fun key type => input.type? key = some type ∧
      type.isAtomic = true) keys keyTypes)
      (haggregates : Forall₂ (fun a type => Aggregate.type input a = .ok type) aggregates types) :
      HasType bound (groupBy keys aggregates) [input] (.positional (keyTypes ++ types))
  | join {keys : Nat} {left right : TupleType} (leftKeys : keys ≤ left.length)
      (rightKeys : keys ≤ right.length)
      (agree : checkKeys 0 (left.types.take keys) (right.types.take keys) = .ok ()) :
      HasType bound (join keys) [left, right] (.positional (left.types ++ right.types.drop keys))
  | cartesian {left right : TupleType} : HasType bound cartesian [left, right] (.concat left right)
  | partition {count key : Nat} {input : TupleType} {type : FieldType}
      (hkey : input.type? key = some type) (integer : type.isInteger = true) :
      HasType bound (partition count key) [input] (.concat (.scalar .int64) input)
  | materializeRowVector {input : TupleType} :
      HasType bound materializeRowVector [input] input.vectorOf
  | ensureSingleTuple {input : TupleType} : HasType bound ensureSingleTuple [input] input

theorem HasType.length_eq (h : HasType bound p inputs t) : inputs.length = p.inputs := by
  cases h <;> rfl

theorem outputType_unary (hinputs : p.inputs = 1) :
    p.outputType [input] bound = p.unaryType input := by
  cases p <;> first | rfl | cases hinputs

theorem outputType_of_hasType (h : HasType bound p inputs t) :
    p.outputType inputs bound = .ok t := by
  cases h with
  | range | constantTuple | cartesian | materializeRowVector | ensureSingleTuple => rfl
  | parameterLookup lookup => exact lookup
  | rowScan array =>
    rw [outputType_unary rfl, unaryType, scanType, array]
    rfl
  | filter infers | map infers =>
    rw [outputType_unary rfl, unaryType, infers]
    rfl
  | projection selects => exact select_eq_ok_iff.2 ⟨_, selects, rfl⟩
  | reduce infers folds =>
    rw [outputType_unary rfl, unaryType, infers, ok_bind, checkFold_eq_ok_iff.2 folds]
    rfl
  | reduceByKey hkey atomic infers folds =>
    rw [outputType_unary rfl]
    simp only [unaryType, hkey, ofOption_some, ok_bind, atomic, infers, checkFold_eq_ok_iff.2 folds]
    rfl
  | groupBy hkeys haggregates =>
    have hkeyTypes := mapM_eq_ok_iff.2 (hkeys.imp fun _ _ => groupKeyType_eq_ok_iff.2)
    rw [outputType_unary rfl, unaryType, hkeyTypes, ok_bind, mapM_eq_ok_iff.2 haggregates]
    rfl
  | join leftKeys rightKeys agree => exact joinType_eq_ok_iff.2 ⟨by omega, agree, rfl⟩
  | partition hkey integer =>
    rw [outputType_unary rfl, unaryType, hkey, ofOption_some, ok_bind, if_pos integer]
    rfl

theorem hasType_of_unaryType (hinputs : p.inputs = 1) (h : p.unaryType input = .ok t) :
    HasType bound p [input] t := by
  cases p with
  | rowScan addIndex =>
    simp only [unaryType, scanType, bind_eq_ok_iff, ofOption_eq_ok_iff, Option.bind_eq_some_iff,
      element?_eq_some_iff] at h
    obtain ⟨element, ⟨_, array, rfl⟩, h⟩ := h
    cases h
    exact .rowScan array
  | filter predicate =>
    simp only [unaryType, bind_eq_ok_iff] at h
    obtain ⟨type, htype, h⟩ := h
    split at h
    · next hbool =>
      cases h
      exact .filter (of_decide_eq_true hbool ▸ htype)
    · cases h
  | map function =>
    simp only [unaryType, bind_eq_ok_iff] at h
    obtain ⟨result, infers, h⟩ := h
    cases h
    exact .map infers
  | projection positions =>
    obtain ⟨types, selects, rfl⟩ := select_eq_ok_iff.1 h
    exact .projection selects
  | reduce function =>
    simp only [unaryType, bind_eq_ok_iff] at h
    obtain ⟨result, infers, _, hfold, h⟩ := h
    cases h
    exact .reduce infers (checkFold_eq_ok_iff.1 hfold)
  | reduceByKey function =>
    simp only [unaryType, guard_eq_ok_iff, bind_eq_ok_iff, ofOption_eq_ok_iff] at h
    obtain ⟨key, hkey, hatomic, result, infers, _, hfold, h⟩ := h
    cases h
    exact .reduceByKey hkey (by simpa using hatomic) infers (checkFold_eq_ok_iff.1 hfold)
  | groupBy keys aggregates =>
    simp only [unaryType, bind_eq_ok_iff, mapM_eq_ok_iff, groupKeyType_eq_ok_iff] at h
    obtain ⟨keyTypes, hkeys, types, haggregates, h⟩ := h
    cases h
    exact .groupBy hkeys haggregates
  | partition count key =>
    simp only [unaryType, bind_eq_ok_iff, ofOption_eq_ok_iff] at h
    obtain ⟨type, hkey, h⟩ := h
    split at h
    · next integer =>
      cases h
      exact .partition hkey integer
    · cases h
  | materializeRowVector =>
    cases h
    exact .materializeRowVector
  | ensureSingleTuple =>
    cases h
    exact .ensureSingleTuple
  | range | constantTuple | parameterLookup | join | cartesian => cases hinputs

/-- **An operator has exactly the types that the rules give it.** -/
theorem outputType_eq_ok_iff : p.outputType inputs bound = .ok t ↔ HasType bound p inputs t := by
  refine ⟨fun h => ?_, outputType_of_hasType⟩
  simp only [outputType, bind_eq_ok_iff] at h
  obtain ⟨_, harity, h⟩ := h
  have hlength : inputs.length = p.inputs := Operator.length_of_checkArity harity
  cases p with
  | range r =>
    obtain rfl := List.length_eq_zero_iff.1 hlength
    cases h
    exact .range
  | constantTuple values =>
    obtain rfl := List.length_eq_zero_iff.1 hlength
    cases h
    exact .constantTuple
  | parameterLookup n declared =>
    obtain rfl := List.length_eq_zero_iff.1 hlength
    exact .parameterLookup h
  | join keys =>
    obtain ⟨left, right, rfl⟩ := length_eq_two.1 hlength
    obtain ⟨hkeys, agree, rfl⟩ := joinType_eq_ok_iff.1 h
    exact .join (by omega) (by omega) agree
  | cartesian =>
    obtain ⟨left, right, rfl⟩ := length_eq_two.1 hlength
    cases h
    exact .cartesian
  | _ =>
    obtain ⟨input, rfl⟩ := length_eq_one_iff.1 hlength
    exact hasType_of_unaryType rfl h

/-- An operator with one input has a rule for the type of that input. -/
theorem exists_input (h : p.outputType inputs bound = .ok t) (hinputs : p.inputs = 1) :
    ∃ input, inputs = [input] ∧ HasType bound p [input] t := by
  have htype := outputType_eq_ok_iff.1 h
  obtain ⟨input, rfl⟩ := length_eq_one_iff.1 (htype.length_eq.trans hinputs)
  exact ⟨input, rfl, htype⟩

end Primitive

end Dataflow
