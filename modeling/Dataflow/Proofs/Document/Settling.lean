/-
**What a document tells about an operator.**

A document has no text for the doubles that are not finite: it gives `null` for each of them.  All
else that an operator consists of can be told from its members.  So operators with the same members
are equal once every constant that is not finite is replaced by one and the same, and they are equal
as they are if the constants of one of them are finite.

Main results:

* `Literal.same_of_toJson`, `Expr.same_of_toJson` — constants and expressions with the same
  description;
* `Primitive.same_of_members` — **operators with the same members are equal once they are settled**.
-/

import Dataflow.Proofs.Document.Operators

namespace Dataflow

/-! ### Constants -/

/-- Infinity in place of a constant that is not finite. -/
def Literal.settle : Literal → Literal
  | float x => float (if x.isFinite then x else Number.infinity false)
  | value => value

theorem Json.ofFloat_eq_iff {x y : Float} :
    ofFloat x = ofFloat y ↔ x.isFinite = y.isFinite ∧ (x.isFinite = true → x = y) := by
  unfold ofFloat
  split <;> split <;> simp_all

/-- Constants with the same description are equal, but for those that are not finite. -/
theorem Literal.same_of_toJson {a b : Literal} (h : a.toJson = b.toJson) :
    a.settle.same b.settle = true ∧ (a.isFinite = true → a.same b = true) := by
  cases a with
  | bool a =>
    cases b with
    | bool b => simpa [toJson, settle, same, isFinite] using h
    | _ => simp [toJson] at h
  | int i =>
    cases b with
    | int j => simpa [toJson, settle, same, isFinite, Int64.toInt_inj] using h
    | _ => simp [toJson] at h
  | float x =>
    cases b with
    | float y =>
      have hxy : Json.ofFloat x = Json.ofFloat y := by simpa [toJson] using h
      obtain ⟨hfinite, heq⟩ := Json.ofFloat_eq_iff.1 hxy
      cases hx : x.isFinite with
      | true =>
        obtain rfl := heq hx
        simpa [settle, same, hx, isFinite] using beq_self_of_isFinite hx
      | false =>
        have hinfinite : (Number.infinity false == Number.infinity false) =
          true := by decide +kernel
        simpa [settle, same, hx, ← hfinite, isFinite] using hinfinite
    | _ => simp [toJson] at h

/-! ### Expressions -/

theorem BinaryOp.eq_of_name {op op' : BinaryOp} (h : op.name = op'.name) : op = op' := by
  have hread := ofJson?_name op
  rw [h, ofJson?_name] at hread
  exact (Option.some.inj hread).symm

theorem UnaryOp.eq_of_name {op op' : UnaryOp} (h : op.name = op'.name) : op = op' := by
  have hread := ofJson?_name op
  rw [h, ofJson?_name] at hread
  exact (Option.some.inj hread).symm

namespace Expr

mutual

/-- Infinity in place of the constants that are not finite. -/
def settle : Expr → Expr
  | field arg index => field arg index
  | literal value => literal value.settle
  | binary op left right => binary op left.settle right.settle
  | unary op operand => unary op operand.settle
  | tuple items => tuple (settleAll items)

/-- Infinity in place of the constants that are not finite. -/
def settleAll : List Expr → List Expr
  | [] => []
  | e :: rest => e.settle :: settleAll rest

end

theorem sameAll_of_listToJson {items items' : List Expr} (h : listToJson items = listToJson items')
    (ih : ∀ e ∈ items, ∀ {e' : Expr}, e.toJson = e'.toJson →
      e.settle.same e'.settle = true ∧ (e.isFinite = true → e.same e' = true)) :
    sameAll (settleAll items) (settleAll items') = true ∧
      (areFinite items = true → sameAll items items' = true) := by
  induction items generalizing items' with
  | nil =>
    cases items' with
    | nil => exact ⟨rfl, fun _ => rfl⟩
    | cons e' items' => cases h
  | cons e items ihs =>
    cases items' with
    | nil => cases h
    | cons e' items' =>
      rw [List.forall_mem_cons] at ih
      obtain ⟨he, hrest⟩ := List.cons.inj h
      obtain ⟨hsettled, hfinite⟩ := ih.1 he
      obtain ⟨hsettleds, hfinites⟩ := ihs hrest ih.2
      simp_all [settleAll, sameAll, areFinite]

/-- Expressions with the same description are equal, but for the constants that are not finite. -/
theorem same_of_toJson {e e' : Expr} (h : e.toJson = e'.toJson) :
    e.settle.same e'.settle = true ∧ (e.isFinite = true → e.same e' = true) := by
  induction e using induction generalizing e' with
  | field arg index =>
    cases e' with
    | field arg' index' =>
      obtain ⟨rfl, rfl⟩ : arg = arg' ∧ index = index' := by simpa [toJson, Json.ofNat] using h
      simp [settle, same]
    | _ => simp [toJson] at h
  | literal value =>
    cases e' with
    | literal value' => exact Literal.same_of_toJson (by simpa [toJson] using h)
    | _ => simp [toJson] at h
  | binary op left right ihl ihr =>
    cases e' with
    | binary op' left' right' =>
      obtain ⟨hleft, hop, hright⟩ : left.toJson = left'.toJson ∧ op.name = op'.name ∧
          right.toJson = right'.toJson := by simpa [toJson] using h
      obtain ⟨hsettled, hfinite⟩ := ihl hleft
      obtain ⟨hsettled', hfinite'⟩ := ihr hright
      obtain rfl := BinaryOp.eq_of_name hop
      simp_all [settle, same, isFinite]
    | _ => simp [toJson] at h
  | unary op operand ih =>
    cases e' with
    | unary op' operand' =>
      obtain ⟨hoperand, hop⟩ : operand.toJson = operand'.toJson ∧ op.name = op'.name := by
        simpa [toJson] using h
      obtain ⟨hsettled, hfinite⟩ := ih hoperand
      obtain rfl := UnaryOp.eq_of_name hop
      simp_all [settle, same, isFinite]
    | _ => simp [toJson] at h
  | tuple items ih =>
    cases e' with
    | tuple items' => exact sameAll_of_listToJson (by simpa [toJson] using h) ih
    | _ => simp [toJson] at h

end Expr

/-! ### Operators -/

theorem TupleType.eq_of_toJson {t t' : TupleType} (h : t.toJson = t'.toJson) : t = t' := by
  have hread := ofJson?_toJson t
  rw [h, ofJson?_toJson] at hread
  exact (Option.some.inj hread).symm

theorem Aggregate.eq_of_toJson {a a' : Aggregate} (h : a.toJson = a'.toJson) : a = a' := by
  have hread := ofJson?_toJson a
  rw [h, ofJson?_toJson] at hread
  exact (Option.some.inj hread).symm

namespace Primitive

/-- Infinity in place of the constants that are not finite. -/
def settle : Primitive → Primitive
  | constantTuple values => constantTuple (values.map Literal.settle)
  | filter predicate => filter predicate.settle
  | map function => map function.settle
  | reduce function => reduce function.settle
  | reduceByKey function => reduceByKey function.settle
  | p => p

theorem same_of_map_toJson {values values' : List Literal}
    (h : values.map Literal.toJson = values'.map Literal.toJson) :
    (constantTuple values).settle.same (constantTuple values').settle = true ∧
      ((constantTuple values).isFinite = true →
        (constantTuple values).same (constantTuple values') = true) := by
  induction values generalizing values' with
  | nil =>
    cases values' with
    | nil => exact ⟨rfl, fun _ => rfl⟩
    | cons value' values' => cases h
  | cons value values ih =>
    cases values' with
    | nil => cases h
    | cons value' values' =>
      obtain ⟨hvalue, hvalues⟩ := List.cons.inj h
      obtain ⟨hsettled, hfinite⟩ := Literal.same_of_toJson hvalue
      obtain ⟨hsettleds, hfinites⟩ := ih hvalues
      simp_all [settle, same, isFinite]

theorem eq_of_map_ofNat {ns ns' : List Nat} (h : ns.map Json.ofNat = ns'.map Json.ofNat) :
    ns = ns' :=
  (List.map_inj_right fun _ _ h => Int.ofNat_inj.1 (Json.int.inj h)).1 h

/-- **Operators with the same members are equal once they are settled**, and they are equal as they
are if the constants of one are finite. -/
theorem same_of_members {p q : Primitive} (htag : p.tag = q.tag)
    (h : ∀ key value, (key, value) ∈ p.members ↔ (key, value) ∈ q.members) :
    p.settle.same q.settle = true ∧ (p.isFinite = true → p.same q = true) := by
  have hmem : ∀ (i : Nat) {key : String} {value : Json}, p.members[i]? = some (key, value) →
    (key, value) ∈ q.members :=
    fun i key value hi => (h key value).1 (List.mem_of_getElem? hi)
  cases p with
  | range r =>
    cases q with
    | range s =>
      have hstart := hmem 0 rfl
      have hstop := hmem 1 rfl
      have hstep := hmem 2 rfl
      cases r
      cases s
      simp_all [members, settle, same, Int64.toInt_inj]
    | _ => cases htag
  | constantTuple values =>
    cases q with
    | constantTuple values' => exact same_of_map_toJson (by simpa [members] using hmem 0 rfl)
    | _ => cases htag
  | parameterLookup n type =>
    cases q with
    | parameterLookup m type' =>
      have hnumber : n = m := by
        cases type <;> cases type' <;> simpa [members, Json.ofNat] using hmem 0 rfl
      have htype : type = type' := by
        cases type with
        | none =>
          cases type' with
          | none => rfl
          | some type' => simpa [members] using (h "output_type" type'.toJson).2 (by simp [members])
        | some type =>
          cases type' with
          | none => simpa [members] using hmem 1 rfl
          | some type' =>
            exact congrArg some (TupleType.eq_of_toJson (by simpa [members] using hmem 1 rfl))
      simp [settle, same, hnumber, htype]
    | _ => cases htag
  | rowScan addIndex =>
    cases q with
    | rowScan addIndex' =>
      have hvalue := hmem 0 rfl
      simp_all [members, settle, same]
    | _ => cases htag
  | filter predicate =>
    cases q with
    | filter predicate' => exact Expr.same_of_toJson (by simpa [members] using hmem 0 rfl)
    | _ => cases htag
  | map function =>
    cases q with
    | map function' => exact Expr.same_of_toJson (by simpa [members] using hmem 0 rfl)
    | _ => cases htag
  | projection positions =>
    cases q with
    | projection positions' =>
      have hvalue := eq_of_map_ofNat (by simpa [members] using hmem 0 rfl)
      simp [settle, same, hvalue]
    | _ => cases htag
  | reduce function =>
    cases q with
    | reduce function' => exact Expr.same_of_toJson (by simpa [members] using hmem 0 rfl)
    | _ => cases htag
  | reduceByKey function =>
    cases q with
    | reduceByKey function' => exact Expr.same_of_toJson (by simpa [members] using hmem 0 rfl)
    | _ => cases htag
  | groupBy keys aggregates =>
    cases q with
    | groupBy keys' aggregates' =>
      have hkeys := eq_of_map_ofNat (by simpa [members] using hmem 0 rfl)
      have haggregates : aggregates = aggregates' :=
        (List.map_inj_right fun _ _ => Aggregate.eq_of_toJson).1
          (by simpa [members] using hmem 1 rfl)
      simp [settle, same, hkeys, haggregates]
    | _ => cases htag
  | join keys =>
    cases q with
    | join keys' =>
      have hvalue := hmem 0 rfl
      simp_all [members, settle, same, Json.ofNat]
    | _ => cases htag
  | partition count key =>
    cases q with
    | partition count' key' =>
      have hcount := hmem 0 rfl
      have hkey := hmem 1 rfl
      simp_all [members, settle, same, Json.ofNat]
    | _ => cases htag
  | cartesian | materializeRowVector | ensureSingleTuple =>
    cases q <;> cases htag; simp [settle, same]

end Primitive

end Dataflow
