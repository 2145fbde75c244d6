/-
**What emission of one operator does.**

An operator is emitted as a statement behind a comment: a call that makes its variable from those of
its inputs, or another name for a variable.  The variable is noted in the innermost scope.  Entering
a pipeline opens a scope, and leaving it closes the scope.  Besides, structs enter the table, for
types that have all properties that the types of the graph inherit.

Main definitions:

* `Emission.Call` — how the call that makes an operator is written;
* `Emission.Step` — what acting on one event of a traversal does;
* `Emitter.Within` — an emitter all of whose types have a property.

Main results:

* `Emission.quiet_expression` — **operators are made by calls**;
* `Emission.Call.closed` — **a call refers to its inputs and to parameters of its function only**;
* `Emission.ensures_visit` — **acting on an event is a step**;
* `Emission.Step.within` — a step keeps all types within an inherited property;
* `Graph.built_of_codeUnit` — so the table of structs of a program is built.
-/

import Dataflow.Code.Program
import Dataflow.Proofs.Code.Emission
import Dataflow.Proofs.Code.Names

namespace Dataflow

open List Outcome FieldType StructTable Emission

variable {P : FieldType → Prop} {t : TupleType}

/-- A variable of a type that has a property, and of its struct. -/
def Binding.Fits (P : FieldType → Prop) (b : Binding) : Prop :=
  P (.tuple b.type) ∧ ∃ number, b.struct = structName number

/-! ### Calls -/

/-- The function that an operator is given, by which a projection selects fields, and how the call
that makes the operator begins. -/
def Primitive.function? : Primitive → Option (String × Expr)
  | filter function => some ("makeFilterOperator<", function)
  | map function => some ("makeMapOperator<", function)
  | projection positions => some ("makeProjectionOperator<", .tuple (positions.map (.field 0)))
  | reduce function => some ("makeReduceOperator<", function)
  | reduceByKey function => some ("makeReduceByKeyOperator<", function)
  | _ => none

/-- How many tuples the function of an operator takes. -/
def Primitive.parameters : Primitive → Nat
  | filter _ | map _ | projection _ => 1
  | reduce _ | reduceByKey _ => 2
  | _ => 0

/-- The types of these tuples. -/
def Primitive.arguments (input : TupleType) : Primitive → List TupleType
  | reduce _ => [input, input]
  | reduceByKey _ => replicate 2 (.positional (input.types.drop 1))
  | _ => [input]

/-- The function of an operator that has a type has one. -/
theorem Primitive.infer_function {p : Primitive} {input : TupleType} {maker : String}
    {function : Expr} {bound : Option (List TupleType)} (h : p.outputType [input] bound = .ok t)
    (hp : p.function? = some (maker, function)) :
    ∃ type, function.infer (p.arguments input) = .ok type := by
  cases outputType_eq_ok_iff.1 h with
  | filter infers | map infers | reduce infers | reduceByKey _ _ infers =>
    cases hp
    exact ⟨_, infers⟩
  | projection selects =>
    cases hp
    exact Expr.infer_select (select_eq_ok_iff.2 ⟨_, selects, rfl⟩)
  | _ => cases hp

/-- Whether an operator that there is code for is given neither a function nor constants. -/
def Primitive.isPlain : Primitive → Bool
  | range _ | constantTuple _ | partition _ _ => false
  | p => p.function?.isNone

namespace Emission

/-- How the result of a function is returned: as it is, or in a struct. -/
def Returns (text result : String) : Prop :=
  result = text ∨ ∃ number, result = structName number ++ "\x7b" ++ text ++ "\x7d"

/-- How the call that makes an operator is written.  It takes inputs by their addresses; what stands
besides refers to no variable, and a function returns an expression over types with a property. -/
inductive Call (P : FieldType → Prop) (found : List Binding) : Primitive → String → Prop
  | range (r : Range) (number : Nat) : Call P found (.range r) ("makeRangeOperator<" ++
      structName number ++ ">(" ++ Kind.int64.literal (toString r.start.toInt) ++ ", " ++
      Kind.int64.literal (toString r.stop.toInt) ++ ", " ++
      Kind.int64.literal (toString r.step.toInt) ++ ")")
  | constantTuple (values : List Literal) (number : Nat) : Call P found (.constantTuple values)
      ("makeConstantTupleOperator<" ++ structName number ++ ">(" ++ structName number ++ "\x7b" ++
        ", ".intercalate (values.map Literal.code) ++ "\x7d)")
  | lookup {p : Primitive} {value : String} (plain : p.isPlain = true)
      (closed : Closed [] 0 value) :
      Call P found p value
  | one {p : Primitive} {i : Binding} {head : String} (plain : p.isPlain = true)
      (taken : i ∈ found) (closed : Closed [] 0 head) :
      Call P found p (head ++ ">(&" ++ i.name ++ ")")
  | two {p : Primitive} {l r : Binding} {head : String} (plain : p.isPlain = true)
      (left : l ∈ found) (right : r ∈ found) (closed : Closed [] 0 head) :
      Call P found p (head ++ ">(&" ++ l.name ++ ", &" ++ r.name ++ ")")
  | more {p : Primitive} {i : Binding} {head arguments : String} (plain : p.isPlain = true)
      (taken : i ∈ found) (closed : Closed [] 0 head) (arguments_closed : Closed [] 0 arguments) :
      Call P found p (head ++ ">(&" ++ i.name ++ ", " ++ arguments ++ ")")
  | function {p : Primitive} {i : Binding} {maker head text result : String} {function : Expr}
      {types : List String} {args : List TupleType} {table table' : StructTable}
      (given : p.function? = some (maker, function))
      (begins : ∃ parameters, head = maker ++ parameters) (taken : i ∈ found)
      (closed : Closed [] 0 head) (structs : ∀ s ∈ types, Closed [] 0 s)
      (arity : types.length = p.parameters ∧ args.length = p.parameters)
      (typed : ∀ t ∈ args, P (.tuple t)) (written : Expr.Written args function table text table')
      (returns : Returns text result) :
      Call P found p (head ++ ">(&" ++ i.name ++ ", " ++ lambda types result ++ ")")

theorem Call.supported {found : List Binding} {p : Primitive} {value : String}
    (h : Call P found p value) : p.tag ≠ .partition := by
  cases p with
  | partition =>
    rcases h with _ | _ | plain | plain | plain | plain | given
    · cases plain
    · cases plain
    · cases plain
    · cases plain
    · cases given
  | _ => exact nofun

/-! ### Emission of calls -/

variable {α β : Type} {m : Emission α} {f : α → Emission β} {e e' : Emitter} {args : List TupleType}
  {p : Primitive} {F : Failure → Prop}

/-- The emitter after an emission that writes no statement and keeps the scopes. -/
structure Still (P : FieldType → Prop) (e e' : Emitter) : Prop where
  built : Built P e'.unit.structs
  scopes : e'.scopes = e.scopes
  body : e'.unit.body = e.unit.body

theorem Still.trans {e₁ e₂ : Emitter} (h : Still P e e₁) (h' : Still P e₁ e₂) : Still P e e₂ :=
  ⟨h'.built, h'.scopes.trans h.scopes, h'.body.trans h.body⟩

/-- An emission that writes no statement and keeps the scopes, and whose result has a property. -/
def Quiet (F : Failure → Prop) (P : FieldType → Prop) (m : Emission α) (Q : α → Prop) : Prop :=
  ∀ e, Built P e.unit.structs → Ensures F m e fun a e' => Q a ∧ Still P e e'

section

variable {Q : α → Prop}

theorem Quiet.pure {a : α} (h : Q a) : Quiet F P (Pure.pure a) Q :=
  fun _ he => .pure ⟨h, he, rfl, rfl⟩

theorem Quiet.bind {R : β → Prop} (hm : Quiet F P m Q) (hf : ∀ a, Q a → Quiet F P (f a) R) :
    Quiet F P (m >>= f) R := by
  refine fun e he => (hm e he).bind fun a e₁ ⟨ha, h₁⟩ => (hf a ha e₁ h₁.built).mono (fun _ => id) ?_
  exact fun b e₂ ⟨hb, h₂⟩ => ⟨hb, h₁.trans h₂⟩

theorem quiet_lift {x : Outcome α} (hx : Allows F x) :
    Quiet F P (Outcome.lift x) fun a => x = .ok a :=
  fun _ he => (ensures_lift hx).mono (fun _ => id) fun _ _ ⟨ha, hsame⟩ =>
    ⟨ha, hsame ▸ ⟨he, rfl, rfl⟩⟩

theorem quiet_modifyUnit {change : CodeUnit → CodeUnit}
    (h : ∀ u, (change u).body = u.body ∧ (change u).structs = u.structs) :
    Quiet F P (modifyUnit change) fun _ => True :=
  fun e he => ⟨trivial, (h e.unit).2.symm ▸ he, rfl, (h e.unit).1⟩

theorem quiet_addInclude (target : String) :
    Quiet F P (modifyUnit (·.addInclude target)) fun _ => True := by
  refine quiet_modifyUnit fun u => ?_
  rw [CodeUnit.addInclude]
  split <;> exact ⟨rfl, rfl⟩

theorem quiet_includeFor (literals : List Literal) :
    Quiet F P (includeFor literals) fun _ => True := by
  rw [includeFor]
  split
  · exact quiet_addInclude _
  · exact .pure trivial

end

theorem closed_lookup (n number : Nat) : Closed [] 0
    s!"makeParameterLookupOperator<{structName number}>(input_{n}, input_{n}_size)" := by
  have hname : ∀ {tail : String}, Word tail → Closed [] 0 ("input_" ++ toString n ++ tail) := by
    intro tail htail
    refine closed_of_word ((Word.append (by decide) (word_toString n)).append htail) (by simp)
      ⟨?_, ?_⟩
    · simp [isVariable, List.isPrefixOf]
    · simp [isParameter]
  have hsplit : s!"makeParameterLookupOperator<{structName number}>(input_{n}, input_{n}_size)" =
      "makeParameterLookupOperator<" ++ structName number ++ ">(" ++
      ("input_" ++ toString n ++ "") ++
        ", " ++ ("input_" ++ toString n ++ "_size") ++ ")" := by
    simp only [String.append_assoc]
    rfl
  rw [hsplit]
  exact (((((closed_structName number).behind rfl (by decide)).join (hname (by decide))
    (by decide)).join (hname (by decide)) (by decide))).before (by decide)

section

variable (hP : Inherited P)
include hP

theorem quiet_declare (ht : P (.tuple t)) :
    Quiet F P (declare t) fun name => ∃ number, name = structName number :=
  fun _ he => ⟨⟨_, rfl⟩, built_declare hP ht he, rfl, rfl⟩

variable {function : Expr} (hargs : ∀ t ∈ args, P (.tuple t))
  (hinfer : (∀ failure, F failure) ∨ ∃ type, function.infer args = .ok type)
include hargs hinfer

theorem quiet_code : Quiet F P (code args function) fun text => ∃ table table',
    Expr.Written args function table text table' := by
  refine (quiet_includeFor _).bind fun _ _ e he => .get_bind (.lift_bind ?_ fun ⟨_, _⟩ hcode => ?_)
  · exact hinfer.imp_right fun ⟨_, htype⟩ => Expr.writes_code htype _
  · exact ⟨⟨_, _, Expr.written_of_code hcode⟩, Expr.built_code hP hargs he hcode, rfl, rfl⟩

theorem quiet_construct (number : Nat) :
    Quiet F P (construct args function (structName number)) fun result => ∃ text table table',
      Expr.Written args function table text table' ∧ Returns text result := by
  refine (quiet_code hP hargs hinfer).bind fun text ⟨table, table', hwritten⟩ => ?_
  refine (quiet_lift hinfer).bind fun type _ => ?_
  cases type with
  | tuple => exact .pure ⟨text, table, table', hwritten, .inl rfl⟩
  | _ => exact .pure ⟨text, table, table', hwritten, .inr ⟨number, rfl⟩⟩

omit hargs hinfer

omit hP

variable {node : Node Operator} {found : List Binding} (htyped : (∀ failure, F failure) ∨
    ∃ bound t, p.outputType (found.map (·.type)) bound = .ok t)
include htyped

/-- An operator that has a type has an input at each of its slots, for which its function has a
type. -/
theorem quiet_input {slot : Nat} (hslot : slot < p.inputs) : Quiet F P (Outcome.lift
    (Outcome.ofOption (.internal (.noInput node.name slot)) found[slot]?)) fun i => i ∈ found ∧
      ∀ maker function, p.function? = some (maker, function) →
        (∀ failure, F failure) ∨ ∃ type, function.infer (p.arguments i.type) = .ok type := by
  intro e he
  have hlength : ∀ {bound t}, p.outputType (found.map (·.type)) bound = .ok t →
      found.length = p.inputs := fun ht =>
    (List.length_map _).symm.trans (Primitive.outputType_eq_ok_iff.1 ht).length_eq
  refine (quiet_lift (htyped.imp_right ?_) e he).mono (fun _ => id) ?_
  · rintro ⟨bound, t, ht⟩
    exact ⟨_, by rw [getElem?_eq_getElem (hlength ht ▸ hslot)]; rfl⟩
  · rintro i e' ⟨hi, hstill⟩
    replace hi := ofOption_eq_ok_iff.1 hi
    refine ⟨⟨mem_of_getElem? hi, fun maker function hp => htyped.imp_right ?_⟩, hstill⟩
    rintro ⟨bound, t, ht⟩
    have hone : p.inputs = 1 := by cases p <;> first | rfl | cases hp
    obtain ⟨j, rfl⟩ := length_eq_one_iff.1 ((hlength ht).trans hone)
    obtain rfl : slot = 0 := Nat.lt_one_iff.1 (hone ▸ hslot)
    cases hi
    exact Primitive.infer_function ht hp

include hP

/-- **Operators are made by calls**, if they have types and are no partitions. -/
theorem quiet_expression (hfound : ∀ b ∈ found, b.Fits P)
    (hpartition : p.tag = .partition → F (.unsupportedOperator node.id node.kind.tag.name))
    (number : Nat) :
    Quiet F P (expression node p (structName number) found) (Call P found p) := by
  have hstruct : Closed [] 0 (structName number) := closed_structName number
  have hpair : ∀ {γ : Type} {Q : γ → Prop} {c : γ}, Q c → ∀ d ∈ [c, c], Q d := by
    intro γ Q c hc d hd
    rcases mem_pair.1 hd with rfl | rfl <;> exact hc
  have hclosed : ∀ {i : Binding}, i ∈ found → Closed [] 0 i.struct := by
    intro i hi
    obtain ⟨-, k, hk⟩ := hfound i hi
    exact hk ▸ closed_structName k
  cases p with
  | range r => exact .pure (.range r number)
  | constantTuple values =>
    exact (quiet_includeFor _).bind fun _ _ => .pure (.constantTuple values number)
  | parameterLookup n declared => exact .pure (.lookup rfl (closed_lookup n number))
  | rowScan addIndex =>
    refine (quiet_input htyped Nat.one_pos).bind fun i ⟨hi, _⟩ => .pure (.one rfl hi ?_)
    cases addIndex with
    | true =>
      exact (hstruct.behind rfl (by decide)).append (closed_literal (by decide))
        (meets_literal_right rfl)
    | false =>
      rw [if_neg Bool.false_ne_true, String.append_empty]
      exact hstruct.behind rfl (by decide)
  | filter | projection =>
    refine (quiet_input htyped Nat.one_pos).bind fun i ⟨hi, hinfer⟩ => ?_
    have htype : ∀ t ∈ [i.type], P (.tuple t) := forall_mem_singleton.2 (hfound i hi).1
    refine (quiet_code hP htype (hinfer _ _ rfl)).bind fun text ⟨table, table', hwritten⟩ =>
      .pure ?_
    exact .function rfl ⟨_, rfl⟩ hi (hstruct.behind rfl (by decide))
      (forall_mem_singleton.2 (hclosed hi)) ⟨rfl, rfl⟩ htype hwritten (.inl rfl)
  | map function =>
    refine (quiet_input htyped Nat.one_pos).bind fun i ⟨hi, hinfer⟩ => ?_
    have htype : ∀ t ∈ [i.type], P (.tuple t) := forall_mem_singleton.2 (hfound i hi).1
    refine (quiet_construct hP htype (hinfer _ _ rfl) number).bind ?_
    rintro result ⟨text, table, table', hwritten, hreturns⟩
    exact .pure (.function rfl ⟨_, rfl⟩ hi (hstruct.behind rfl (by decide))
      (forall_mem_singleton.2 (hclosed hi)) ⟨rfl, rfl⟩ htype hwritten hreturns)
  | reduce function =>
    refine (quiet_input htyped Nat.one_pos).bind fun i ⟨hi, hinfer⟩ => ?_
    refine (quiet_construct hP (hpair (hfound i hi).1) (hinfer _ _ rfl) number).bind ?_
    rintro result ⟨text, table, table', hwritten, hreturns⟩
    exact .pure (.function rfl ⟨_, rfl⟩ hi (hstruct.behind rfl (by decide)) (hpair (hclosed hi))
      ⟨rfl, rfl⟩ (hpair (hfound i hi).1) hwritten hreturns)
  | reduceByKey function =>
    refine (quiet_input htyped Nat.one_pos).bind fun i ⟨hi, hinfer⟩ => ?_
    have hvalues : P (.tuple (TupleType.positional (i.type.types.drop 1))) :=
      hP.positional _ fun t ht => hP.field i.type (hfound i hi).1 t (mem_of_mem_drop ht)
    refine (quiet_declare hP hvalues).bind ?_
    rintro _ ⟨k, rfl⟩
    refine (quiet_construct hP (hpair hvalues) (hinfer _ _ rfl) k).bind ?_
    rintro result ⟨text, table, table', hwritten, hreturns⟩
    have hvalue : Closed [] 0 (structName k) := closed_structName k
    refine .pure (.function rfl ⟨structName number ++ ", " ++ structName k, ?_⟩ hi
      ((hstruct.behind rfl (by decide)).join hvalue (by decide)) (hpair hvalue)
      ⟨rfl, rfl⟩ (hpair hvalues) hwritten hreturns)
    simp only [String.append_assoc]
    rfl
  | groupBy keys aggregates =>
    exact (quiet_input htyped Nat.one_pos).bind fun i ⟨hi, _⟩ => .pure (.more rfl hi
      (hstruct.behind rfl (by decide)) (closed_groupArguments keys aggregates))
  | join keys =>
    refine (quiet_input htyped Nat.two_pos).bind fun l ⟨hl, _⟩ =>
      (quiet_input htyped Nat.one_lt_two).bind fun r ⟨hr, _⟩ => .pure (.two rfl hl hr ?_)
    exact (hstruct.behind rfl (by decide)).join (closed_toString keys) (by decide)
  | cartesian =>
    exact (quiet_input htyped Nat.two_pos).bind fun l ⟨hl, _⟩ =>
      (quiet_input htyped Nat.one_lt_two).bind fun r ⟨hr, _⟩ =>
        .pure (.two rfl hl hr (hstruct.behind rfl (by decide)))
  | partition => exact fun _ _ => hpartition rfl
  | materializeRowVector | ensureSingleTuple =>
    exact (quiet_input htyped Nat.one_pos).bind fun i ⟨hi, _⟩ =>
      .pure (.one rfl hi (hstruct.behind rfl (by decide)))

end

/-- **A call refers to its inputs and to parameters of its function only**, if the names of the
fields are identifiers. -/
theorem Call.closed {found : List Binding} {value : String}
    (hP : ∀ t, P (.tuple t) → ∀ name ∈ TupleType.names t, Identifier name)
    (hfound : ∀ b ∈ found, Word b.name ∧ b.name.toList ≠ [] ∧ isParameter b.name = false)
    (h : Call P found p value) : Closed (found.map (·.name)) p.parameters value := by
  have hname : ∀ {i n}, i ∈ found → Closed (found.map (·.name)) n i.name := by
    intro i n hi
    obtain ⟨hword, hne, hparameter⟩ := hfound i hi
    refine closed_of_word hword hne ⟨fun _ => List.mem_map_of_mem hi, fun h => ?_⟩
    rw [hparameter] at h
    cases h
  cases h with
  | range r number =>
    exact ((((closed_structName number).behind rfl (by decide)).join (closed_int64 _)
      (by decide)).join (closed_int64 _) (by decide)).join (closed_int64 _) (by decide)
      |>.before (by decide)
  | constantTuple values number =>
    have hvalues : Closed (found.map (·.name)) 0 (", ".intercalate (values.map Literal.code)) := by
      refine closed_intercalate fun text htext => ?_
      obtain ⟨value, -, rfl⟩ := List.mem_map.1 htext
      exact value.closed_code
    exact ((((closed_structName number).behind rfl (by decide)).join
      (closed_structName number) (by decide)).join hvalues (by decide)).before (by decide)
  | lookup _ closed => exact closed.mono
  | one _ taken closed => exact (closed.mono.join (hname taken) (by decide)).before (by decide)
  | two _ left right closed =>
    exact ((closed.mono.join (hname left) (by decide)).join (hname right)
      (by decide)).before (by decide)
  | more _ taken closed arguments =>
    exact ((closed.mono.join (hname taken) (by decide)).join arguments.mono (by decide)).before
      (by decide)
  | @function _ _ _ _ text result _ types args _ _ _ _ taken closed structs arity
      typed written returns =>
    have htext : Closed (found.map (·.name)) args.length text :=
      written.closed fun t ht => hP t (typed t ht)
    have hresult : Closed (found.map (·.name)) args.length result := by
      rcases returns with rfl | ⟨number, rfl⟩
      · exact htext
      · exact ((closed_structName number).join htext (by decide)).before (by decide)
    rw [arity.2, ← arity.1] at hresult
    rw [← arity.1]
    exact ((closed.mono.join (hname taken) (by decide)).join (closed_lambda structs hresult)
      (by decide)).before (by decide)

end Emission

/-! ### Steps -/

/-- Whether an event is that a partition is entered. -/
def Event.entersPartition (event : Event) : Bool :=
  event.phase = .enter && event.node.kind.tag = .partition

/-- An operator that has a variable in a scope, which is of its type. -/
def Scope.Binds (s : Scope) (id : Nat) : Prop :=
  ∃ b, s.bindings.get? id = some b ∧ s.types.outputs.get? id = some b.type

/-- An emitter all of whose types have a property: those of its scopes, of its variables, and those
that its structs were declared for. -/
structure Emitter.Within (P : FieldType → Prop) (e : Emitter) : Prop where
  structs : Built P e.unit.structs
  types : ∀ s ∈ e.scopes, s.types.All fun t => P (.tuple t)
  bindings : ∀ s ∈ e.scopes, ∀ id b, s.bindings.get? id = some b → b.Fits P

namespace Emission

/-- The statement for an operator in a scope: another name for an input of the pipeline, or a call
that makes it from variables of the scope. -/
inductive Made (P : FieldType → Prop) (sc : Scope) (name : String) : Primitive → Statement → Prop
  | input {n : Nat} {declared : Option TupleType} {target : String} (given : target ∈ sc.inputs) :
      Made P sc name (.parameterLookup n declared) (.reference name target)
  | call {p : Primitive} {found : List Binding} {value : String}
      (known : ∀ b ∈ found, ∃ id, sc.bindings.get? id = some b) (call : Call P found p value) :
      Made P sc name p (.declare name value)

/-- What emission of a variable of the innermost scope does. -/
structure Defines (P : FieldType → Prop) (sc : Scope) (rest : List Scope) (text : String)
    (s : Statement) (id : Nat) (b : Binding) (e e' : Emitter) : Prop where
  named : b.name = sc.variableOf id
  fits : b.Fits P
  built : Built P e'.unit.structs
  scopes : e'.scopes = { sc with bindings := sc.bindings.put id b } :: rest
  body : e'.unit.body = e.unit.body ++ [.comment text, s]

/-- An event that can be acted on, but for partitions: the producers of an operator that is entered
have variables, and so has the sink of a pipeline that is left. -/
def Ready (event : Event) (e : Emitter) : Prop :=
  ∃ sc rest, e.scopes = sc :: rest ∧ match event.node.kind, event.phase with
    | .primitive p, .enter => (∀ q ∈ event.graph.producers event.node.id, sc.Binds q) ∧
        (∃ bound t, sc.types.outputs.get? event.node.id = some t ∧
          p.outputType ((event.graph.producers event.node.id).map sc.types.type) bound = .ok t) ∧
        ∀ n declared, p = .parameterLookup n declared → sc.isOuter = false → n < sc.inputs.length
    | .primitive _, .exit => True
    | .pipeline _ _, .enter => (∀ q ∈ event.graph.producers event.node.id, sc.Binds q) ∧
        ∃ types, Table.get? sc.types.inner event.node.id = some types
    | .pipeline _ inner, .exit => rest ≠ [] ∧ ∃ sink, inner.sink = some sink ∧ sc.Binds sink

/-- What acting on an event does. -/
inductive Step (P : FieldType → Prop) : Event → Emitter → Emitter → Prop
  | emit {g : Dag} {node : Node Operator} {p : Primitive} {sc : Scope} {rest : List Scope}
      {s : Statement} {b : Binding} {e e' : Emitter} (kind : node.kind = .primitive p)
      (within : e.scopes = sc :: rest) (made : Made P sc (sc.variableOf node.id) p s)
      (typed : sc.types.outputs.get? node.id = some b.type)
      (defines : Defines P sc rest node.name s node.id b e e') : Step P ⟨.enter, node, g⟩ e e'
  | pass {g : Dag} {node : Node Operator} {p : Primitive} {e : Emitter}
      (kind : node.kind = .primitive p) : Step P ⟨.exit, node, g⟩ e e
  | enter {g inner : Dag} {node : Node Operator} {n : Nat} {sc : Scope} {rest : List Scope}
      {types : GraphTypes} {inputs : List String} {text : String} {e e' : Emitter}
      (kind : node.kind = .pipeline n inner) (within : e.scopes = sc :: rest)
      (known : ∀ v ∈ inputs, ∃ id b, sc.bindings.get? id = some b ∧ b.name = v)
      (count : inputs.length = (g.producers node.id).length)
      (typed : Table.get? sc.types.inner node.id = some types)
      (structs : e'.unit.structs = e.unit.structs)
      (scopes : e'.scopes = { stem := sc.variableOf node.id ++ "_", types, inputs } :: sc :: rest)
      (body : e'.unit.body = e.unit.body ++ [.comment text]) : Step P ⟨.enter, node, g⟩ e e'
  | leave {g inner : Dag} {node : Node Operator} {n sink : Nat}
      {inside sc : Scope} {rest : List Scope} {result : Binding} {text : String} {e e' : Emitter}
      (kind : node.kind = .pipeline n inner) (within : e.scopes = inside :: sc :: rest)
      (ends : inner.sink = some sink) (found : inside.bindings.get? sink = some result)
      (defines : Defines P sc rest text (.reference (sc.variableOf node.id) result.name) node.id
        { result with name := sc.variableOf node.id } e e') : Step P ⟨.exit, node, g⟩ e e'

variable {e e₁ : Emitter} {g : Dag} {node : Node Operator} {sc : Scope} {rest : List Scope}
  {event : Event} {events : List Event}

/-- The variables of producers that have one are of their types. -/
theorem exists_found {producers : List Nat} (h : ∀ q ∈ producers, sc.Binds q) :
    ∃ found : List Binding, producers.mapM (fun q =>
      Outcome.ofOption (.unboundVariable q) (sc.bindings.get? q)) = .ok found ∧
      found.map (·.type) = producers.map sc.types.type := by
  induction producers with
  | nil => exact ⟨[], rfl, rfl⟩
  | cons q producers ih =>
    obtain ⟨⟨b, hb, htype⟩, hrest⟩ := forall_mem_cons.1 h
    obtain ⟨found, hfound, htypes⟩ := ih hrest
    refine ⟨b :: found, ?_, ?_⟩
    · rw [mapM_cons, hb, hfound]
      rfl
    · rw [map_cons, map_cons, htypes, GraphTypes.type, htype, Option.getD_some]

theorem ensures_inputs {id : Nat} (h : (∀ failure, F failure) ∨
      ∃ sc rest, e.scopes = sc :: rest ∧ ∀ q ∈ g.producers id, sc.Binds q) :
    Ensures F (inputs g id) e fun found e' => e = e' ∧ ∃ sc rest, e.scopes = sc :: rest ∧
      found.length = (g.producers id).length ∧ (∀ b ∈ found, ∃ q, sc.bindings.get? q = some b) ∧
      ((∀ q ∈ g.producers id, sc.Binds q) →
        found.map (·.type) = (g.producers id).map sc.types.type) := by
  refine .scope_bind (h.imp_right ?_) fun sc rest hscopes => ?_
  · rintro ⟨sc, rest, hscopes, -⟩
    exact hscopes ▸ cons_ne_nil _ _
  refine (ensures_lift (h.imp_right ?_)).mono (fun _ hfailure => hfailure) ?_
  · rintro ⟨sc', rest', hscopes', hbinds⟩
    obtain ⟨rfl, -⟩ := cons.inj (hscopes.symm.trans hscopes')
    obtain ⟨found, hfound, -⟩ := exists_found hbinds
    exact ⟨found, hfound⟩
  · rintro found _ ⟨hfound, rfl⟩
    refine ⟨rfl, sc, rest, hscopes, (mapM_eq_ok_iff.1 hfound).length_eq.symm, fun b hb => ?_, ?_⟩
    · obtain ⟨q, -, hq⟩ := mem_of_mapM hfound hb
      exact ⟨q, ofOption_eq_ok_iff.1 hq⟩
    · intro hbinds
      obtain ⟨found', hfound', htypes⟩ := exists_found hbinds
      cases hfound.symm.trans hfound'
      exact htypes

theorem ensures_define {s : Statement} {id : Nat} {b : Binding} (hscopes : e₁.scopes = sc :: rest)
    (hbody : e₁.unit.body = e.unit.body) (hbuilt : Built P e₁.unit.structs) (text : String)
    (hname : b.name = sc.variableOf id) (hfits : b.Fits P) :
    Ensures F (do push (.comment text); push s; bind id b) e₁ fun _ =>
      Defines P sc rest text s id b e := by
  show Ensures F (bind id b) { e₁ with unit := (e₁.unit.push (.comment text)).push s } _
  have hne : e₁.scopes ≠ [] := hscopes ▸ cons_ne_nil _ _
  refine .scope_bind (.inr hne) fun sc' rest' hscopes' => ?_
  obtain ⟨rfl, rfl⟩ := cons.inj (hscopes.symm.trans hscopes')
  exact ⟨hname, hfits, hbuilt, congrArg (_ :: List.tail ·) hscopes, by simp [CodeUnit.push, hbody]⟩

/-- **Emission of a primitive operator is a step.** -/
theorem ensures_emit (hP : Inherited P) (he : e.Within P) {p : Primitive}
    (hkind : node.kind = .primitive p)
    (hready : (∀ failure, F failure) ∨ Ready ⟨.enter, node, g⟩ e)
    (hpartition : p.tag = .partition → F (.unsupportedOperator node.id Tag.partition.name)) :
    Ensures F (emit g node p) e fun _ => Step P ⟨.enter, node, g⟩ e := by
  simp only [Ready, hkind] at hready
  refine (ensures_inputs (hready.imp_right ?_)).bind ?_
  · rintro ⟨sc, rest, hscopes, hbinds, -⟩
    exact ⟨sc, rest, hscopes, hbinds⟩
  rintro found _ ⟨rfl, sc, rest, hscopes, -, hfound, htypes⟩
  have hne : e.scopes ≠ [] := hscopes ▸ cons_ne_nil _ _
  refine .scope_bind (.inr hne) fun sc' rest' hscopes' => ?_
  obtain ⟨rfl, rfl⟩ := cons.inj (hscopes.symm.trans hscopes')
  have hmem : sc ∈ e.scopes := hscopes ▸ mem_cons_self
  replace hready := hready.imp_right fun ⟨sc', _, hscopes', h⟩ =>
    (cons.inj (hscopes'.symm.trans hscopes)).1 ▸ h
  refine .lift_bind (hready.imp_right ?_) fun type htype => ?_
  · rintro ⟨-, ⟨bound, t, ht, -⟩, -⟩
    exact ⟨t, GraphTypes.output_eq_ok_iff.2 ht⟩
  rw [GraphTypes.output_eq_ok_iff] at htype
  have htyped : P (.tuple type) :=
    (GraphTypes.all_iff.1 (he.types sc hmem)).1 node.id type htype
  refine (quiet_declare hP htyped e he.structs).bind ?_
  rintro _ e₁ ⟨⟨number, rfl⟩, h₁⟩
  have hdefine : ∀ {e₂ s}, Still P e₁ e₂ → Made P sc (sc.variableOf node.id) p s → Ensures F (do
      push (.comment node.name)
      push s
      bind node.id ⟨sc.variableOf node.id, type, structName number⟩) e₂ fun _ =>
        Step P ⟨.enter, node, g⟩ e := by
    intro e₂ s h₂ hmade
    refine (ensures_define (e := e) (h₂.scopes.trans (h₁.scopes.trans hscopes))
      (h₂.body.trans h₁.body) h₂.built node.name rfl ⟨htyped, number, rfl⟩).mono (fun _ => id) ?_
    exact fun _ e' hdefines => .emit hkind hscopes hmade htype hdefines
  split
  · next houter =>
    refine .lift_bind (hready.imp_right ?_) fun target htarget =>
      hdefine ⟨h₁.built, rfl, rfl⟩ (.input ?_)
    · rintro ⟨-, -, hinput⟩
      exact ⟨_, by rw [getElem?_eq_getElem (hinput _ _ rfl houter)]; rfl⟩
    · exact mem_of_getElem? (ofOption_eq_ok_iff.1 htarget)
  · refine (quiet_expression hP (hready.imp_right ?_) ?_ ?_ number e₁ h₁.built).bind ?_
    · rintro ⟨hbinds, ⟨bound, t, -, ht⟩, -⟩
      exact ⟨bound, t, htypes hbinds ▸ ht⟩
    · intro b hb
      obtain ⟨q, hq⟩ := hfound b hb
      exact he.bindings sc hmem q b hq
    · intro htag
      have hname : node.kind.tag = .partition := by rw [hkind]; exact htag
      exact hname ▸ hpartition htag
    rintro value e₂ ⟨hcall, h₂⟩
    have hinclude : ∀ {e₃}, Still P e₁ e₃ → Ensures F (do
        modifyUnit (·.addInclude (operatorFile node.kind.tag))
        push (.comment node.name)
        push (.declare (sc.variableOf node.id) value)
        bind node.id ⟨sc.variableOf node.id, type, structName number⟩) e₃ fun _ =>
          Step P ⟨.enter, node, g⟩ e := fun {e₃} h₃ =>
      (quiet_addInclude _ e₃ h₃.built).bind fun _ e₄ ⟨_, h₄⟩ =>
        hdefine (h₃.trans h₄) (.call hfound hcall)
    split
    · refine Ensures.bind (quiet_modifyUnit ?_ e₂ h₂.built) fun _ e₃ ⟨_, h₃⟩ =>
        hinclude (h₂.trans h₃)
      exact fun _ => ⟨rfl, rfl⟩
    · exact hinclude h₂

/-- **Acting on an event is a step**, if it can be acted on. -/
theorem ensures_visit (hP : Inherited P) (he : e.Within P) (event : Event)
    (hready : (∀ failure, F failure) ∨ Ready event e)
    (hpartition : event.entersPartition = true →
      F (.unsupportedOperator event.node.id Tag.partition.name)) :
    Ensures F (visit event) e fun _ => Step P event e := by
  obtain ⟨phase, node, g⟩ := event
  cases hkind : node.kind <;> cases phase <;> rw [visit, hkind]
  · refine ensures_emit hP he hkind hready fun htag => hpartition ?_
    simp [Event.entersPartition, hkind, Operator.tag, htag]
  · exact .pure (.pass hkind)
  · simp only [Ready, hkind] at hready
    refine (ensures_inputs (hready.imp_right ?_)).bind ?_
    · rintro ⟨sc, rest, hscopes, hbinds, -⟩
      exact ⟨sc, rest, hscopes, hbinds⟩
    rintro found _ ⟨rfl, sc, rest, hscopes, hlength, hfound, -⟩
    have hne : e.scopes ≠ [] := hscopes ▸ cons_ne_nil _ _
    refine .scope_bind (.inr hne) fun sc' rest' hscopes' => ?_
    obtain ⟨rfl, rfl⟩ := cons.inj (hscopes.symm.trans hscopes')
    refine .lift_bind (hready.imp_right ?_) fun types htypes => ?_
    · rintro ⟨sc', _, hscopes', -, types, htypes⟩
      obtain ⟨rfl, -⟩ := cons.inj (hscopes.symm.trans hscopes')
      exact ⟨types, ofOption_eq_ok_iff.2 htypes⟩
    refine .enter hkind hscopes (fun v hv => ?_) ((List.length_map _).trans hlength)
      (ofOption_eq_ok_iff.1 htypes) rfl (congrArg (_ :: ·) hscopes) rfl
    obtain ⟨b, hb, rfl⟩ := List.mem_map.1 hv
    obtain ⟨q, hq⟩ := hfound b hb
    exact ⟨q, b, hq, rfl⟩
  · simp only [Ready, hkind] at hready
    refine .scope_bind (hready.imp_right ?_) fun inside others hscopes => ?_
    · rintro ⟨sc, rest, hscopes, -⟩
      exact hscopes ▸ cons_ne_nil _ _
    replace hready := hready.imp_right fun h => by
      obtain ⟨sc', rest', hscopes', h⟩ := h
      obtain ⟨rfl, rfl⟩ := cons.inj (hscopes'.symm.trans hscopes)
      exact h
    have hothers : e.scopes.tail = others := congrArg List.tail hscopes
    refine Ensures.bind (Q := fun _ e₁ => e₁ = { e with scopes := others }) ?_ ?_
    · exact congrArg (Emitter.mk e.unit) hothers
    rintro _ _ rfl
    refine .lift_bind (hready.imp_right ?_) fun sink hsink => .lift_bind (hready.imp_right ?_)
      fun result hresult => .scope_bind (hready.imp_right fun h => h.1) fun sc rest hothers => ?_
    · rintro ⟨-, sink, hsink, -⟩
      exact ⟨sink, ofOption_eq_ok_iff.2 hsink⟩
    · rintro ⟨-, sink', hsink', b, hb, -⟩
      cases (ofOption_eq_ok_iff.1 hsink).symm.trans hsink'
      exact ⟨b, ofOption_eq_ok_iff.2 hb⟩
    have hfound := ofOption_eq_ok_iff.1 hresult
    refine (ensures_define (e := e) hothers rfl he.structs _ rfl ?_).mono (fun _ => id) ?_
    · exact he.bindings inside (hscopes ▸ mem_cons_self) sink result hfound
    · exact fun _ e' hdefines => .leave hkind (hscopes.trans (congrArg (inside :: ·) hothers))
        (ofOption_eq_ok_iff.1 hsink) hfound hdefines

theorem Defines.within {text : String} {s : Statement} {id : Nat} {b : Binding} {e' : Emitter}
    (h : Defines P sc rest text s id b e e') (he : e.Within P)
    (hscopes : ∀ s ∈ sc :: rest, s ∈ e.scopes) :
    e'.Within P := by
  obtain ⟨hsc, hrest⟩ := forall_mem_cons.1 hscopes
  refine ⟨h.built, ?_, ?_⟩ <;> rw [h.scopes, forall_mem_cons]
  · exact ⟨he.types sc hsc, fun s hs => he.types s (hrest s hs)⟩
  · refine ⟨fun k c hc => ?_, fun s hs => he.bindings s (hrest s hs)⟩
    rw [Table.get?_put] at hc
    split at hc
    · cases hc
      exact h.fits
    · exact he.bindings sc hsc k c hc

/-- **A step keeps all types within an inherited property.** -/
theorem Step.within {e' : Emitter} (h : Step P event e e') (he : e.Within P) : e'.Within P := by
  cases h with
  | emit _ hscopes _ _ hdefines => exact hdefines.within he fun s hs => hscopes ▸ hs
  | pass => exact he
  | enter _ hscopes _ _ htyped hstructs hscopes' _ =>
    refine ⟨hstructs ▸ he.structs, ?_, ?_⟩ <;> rw [hscopes', forall_mem_cons]
    · have hinside := (GraphTypes.all_iff.1 (he.types _ (hscopes ▸ mem_cons_self))).2
      exact ⟨hinside _ _ htyped, fun s hs => he.types s (hscopes ▸ hs)⟩
    · exact ⟨nofun, fun s hs => he.bindings s (hscopes ▸ hs)⟩
  | leave _ hscopes _ _ hdefines =>
    exact hdefines.within he fun s hs => hscopes ▸ mem_cons_of_mem _ hs

/-- So do the steps of a traversal. -/
theorem within_forM (hP : Inherited P) (he : e.Within P) (events : List Event) :
    Ensures (fun _ => True) (events.forM visit) e fun _ e' => e'.Within P := by
  induction events generalizing e with
  | nil => exact .pure he
  | cons event events ih =>
    refine (ensures_visit hP he event (.inl fun _ => trivial) fun _ => trivial).bind ?_
    exact fun _ _ hstep => ih (hstep.within he)

/-! ### The end of a program -/

/-- The statements that collect the value of a variable. -/
def driver (v : String) : List Statement :=
  [.comment "collecting the result", .line (v ++ ".open();"),
    .line ("const auto result = " ++ v ++ ".next().value;"),
    .line "auto ret = (result_type *)malloc(sizeof(result_type));",
      .line "ret->data = result.v0.data;",
    .line "ret->size = result.v0.shape[0];", .line (v ++ ".close();"), .line "return ret;"]

/-- The statements that make a row vector of the result: none if it is one. -/
inductive Materialized (P : FieldType → Prop) (b : Binding) : String → List Statement → Prop
  | vector : Materialized P b b.name []
  | call {value : String} (call : Call P [b] .materializeRowVector value) :
      Materialized P b "op_result" [.comment "materialize the result", .declare "op_result" value]

/-- **The end of a program** collects the value of the sink as a row vector, and the type of its
elements is spelled. -/
theorem ensures_finish (hP : Inherited P) (he : e.Within P) {sink : Nat}
    (hsink : (∀ failure, F failure) ∨ ∃ b, e.binding? sink = some b) :
    Ensures F (finish sink) e fun u _ => ∃ b v made, e.binding? sink = some b ∧ b.Fits P ∧
      u.Ends P b.type.resultElement ∧ Materialized P b v made ∧
      u.body = e.unit.body ++ made ++ driver v := by
  refine Ensures.bind (Q := fun result e₁ => ∃ b made, e.binding? sink = some b ∧ b.Fits P ∧
    result.type.rowVector? = some b.type.resultElement ∧ Built P e₁.unit.structs ∧
    Materialized P b result.name made ∧ e₁.unit.body = e.unit.body ++ made) ?_ ?_
  · refine .get_bind (.lift_bind (hsink.imp_right (.imp fun _ => ofOption_eq_ok_iff.2))
      fun b hb => ?_)
    replace hb := ofOption_eq_ok_iff.1 hb
    have hfits : b.Fits P := by
      obtain ⟨s, hs, hget⟩ := Option.bind_eq_some_iff.1 hb
      exact he.bindings s (mem_of_getLast? hs) sink b hget
    split
    · next hvector =>
      obtain ⟨element, helement⟩ := Option.isSome_iff_exists.1 hvector
      refine .pure ⟨b, [], hb, hfits, ?_, he.structs, .vector, (append_nil _).symm⟩
      rw [TupleType.resultElement, helement, Option.getD_some]
    · next hvector =>
      have helement : b.type.resultElement = .tuple b.type := by
        rw [TupleType.resultElement, Option.not_isSome_iff_eq_none.1 hvector, Option.getD_none]
      refine (quiet_declare hP (hP.vectorOf hfits.1) e he.structs).bind ?_
      rintro _ e₁ ⟨⟨number, rfl⟩, h₁⟩
      refine (quiet_addInclude _ e₁ h₁.built).bind ?_
      rintro _ e₂ ⟨-, h₂⟩
      have hhead : Closed [] 0 ("makeMaterializeRowVectorOperator<" ++ structName number) :=
        (closed_structName number).behind rfl (by decide)
      refine ⟨b, _, hb, hfits, helement ▸ rfl, h₂.built, .call (.one rfl mem_cons_self hhead), ?_⟩
      simp only [CodeUnit.push, h₂.body, h₁.body, List.append_assoc]
      rfl
  · rintro result e₁ ⟨b, made, hb, hfits, hvector, hbuilt, hmade, hbody⟩
    refine .lift_bind (.inr ⟨_, ofOption_eq_ok_iff.2 hvector⟩) fun element helement => .get_bind ?_
    rw [hvector] at helement
    cases helement
    refine ⟨b, result.name, made, hb, hfits, ⟨e₁.unit.structs, hbuilt, rfl, rfl, rfl⟩, hmade, ?_⟩
    simp [CodeUnit.push, hbody, driver]

end Emission

namespace Graph

variable {g : Dag} {comments : Bool} {u : CodeUnit}

/-- A code unit comes from acting on the events of the traversal and bringing the program to its
end. -/
theorem codeUnit_eq (g : Dag) (comments : Bool) : g.codeUnit comments = (do
    g.validate
    let types ← g.types
    let sink ← Outcome.ofOption (.invalidParameter .noSink) g.sink
    let events ← g.trace .forward
    ((do events.forM visit; finish sink : Emission CodeUnit).run.run
      (Emitter.start types comments)).1) := by
  rw [codeUnit]
  refine congrArg _ (funext fun _ => congrArg
    _ (funext fun types => congrArg _ (funext fun _ => ?_)))
  rw [traverse, if_pos rfl]
  cases g.trace .forward <;> rfl

theorem codeUnit_of_trace {types : GraphTypes} {sink : Nat} {events : List Event}
    (hvalid : g.validate = .ok ()) (htypes : g.types = .ok types) (hsink : g.sink = some sink)
    (htrace : g.trace .forward = .ok events) (comments : Bool) : g.codeUnit comments =
      ((do events.forM visit; finish sink : Emission CodeUnit).run.run
        (Emitter.start types comments)).1 := by
  rw [codeUnit_eq, hvalid, htypes, hsink, htrace]
  rfl

theorem codeUnit_eq_ok (h : g.codeUnit comments = .ok u) :
    ∃ types sink events e e', g.validate = .ok () ∧ g.types = .ok types ∧ g.sink = some sink ∧
      g.trace .forward = .ok events ∧
      (events.forM visit).run.run (Emitter.start types comments) = (.ok (), e) ∧
      (finish sink).run.run e = (.ok u, e') := by
  simp only [codeUnit_eq, bind_eq_ok_iff, ofOption_eq_ok_iff] at h
  obtain ⟨_, hvalid, types, htypes, sink, hsink, events, htrace, h⟩ := h
  rw [run_bind] at h
  rcases hevents : (events.forM visit).run.run
    (Emitter.start types comments) with ⟨failure | _, e⟩
  · rw [hevents] at h
    cases h
  · rw [hevents] at h
    exact ⟨types, sink, events, e, _, hvalid, htypes, hsink, htrace, hevents, Prod.ext h rfl⟩

theorem within_start {types : GraphTypes} (comments : Bool)
    (htypes : types.All fun t => P (.tuple t)) : (Emitter.start types comments).Within P where
  structs := built_nil
  types := by
    intro s hs
    cases mem_singleton.1 hs
    exact htypes
  bindings := by
    intro s hs id b hb
    cases mem_singleton.1 hs
    cases hb

/-- What there is when a program is finished: a variable for the sink, and a table of structs and an
element type for its type. -/
theorem ends_of_sink (hP : Inherited P) (hdeclares : g.Declares fun t => P (.tuple t))
    (h : g.codeUnit comments = .ok u) : ∃ types sink events e b, g.validate = .ok () ∧
      g.types = .ok types ∧ g.sink = some sink ∧ g.trace .forward = .ok events ∧
      (events.forM visit).run.run (Emitter.start types comments) = (.ok (), e) ∧
      e.binding? sink = some b ∧ b.Fits P ∧ u.Ends P b.type.resultElement := by
  obtain ⟨types, sink, events, e, e', hvalid, htypes, hsink, htrace, hevents, hfinish⟩ :=
    codeUnit_eq_ok h
  have hstart := within_start comments ((all_types_iff hP htypes).2 hdeclares)
  have he := (within_forM hP hstart events).of_run hevents
  obtain ⟨b, _, _, hb, hfits, hends, -⟩ :=
    (ensures_finish (F := fun _ => True) hP he (.inl fun _ => trivial)).of_run hfinish
  exact ⟨types, sink, events, e, b, hvalid, htypes, hsink, htrace, hevents, hb, hfits, hends⟩

/-- **The structs of a program are those of types that have all inherited properties of the declared
ones.** -/
theorem built_of_codeUnit (hP : Inherited P) (hdeclares : g.Declares fun t => P (.tuple t))
    (h : g.codeUnit comments = .ok u) : Built P u.structs := by
  obtain ⟨_, _, _, _, b, -, -, -, -, -, -, hfits, table, htable, hstructs, -⟩ :=
    ends_of_sink hP hdeclares h
  rw [hstructs]
  exact (built_spell hP (TupleType.inherited_resultElement hP hfits.1) htable).built

end Graph

end Dataflow
