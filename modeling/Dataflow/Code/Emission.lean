/-
**Emission.**

Every operator becomes one variable of the generated program, made from the variables of its
producers.  Operators are emitted as a traversal enters and leaves them: a primitive operator when
it is entered, and a pipeline when it is left, as another name for the variable of its sink.
-/

import Dataflow.Code.Expr
import Dataflow.Code.Unit
import Dataflow.Graph.Traversal
import Dataflow.Typing.Graph

namespace Dataflow

/-- The variable of an operator, its type, and the name of the struct of that type. -/
structure Binding where
  name : String
  type : TupleType
  struct : String

/-- A graph that is being emitted: how the names of its variables begin, its types, the variables of
the inputs of the pipeline around it, and the operators that were emitted. -/
structure Scope where
  stem : String
  types : GraphTypes
  inputs : List String := []
  bindings : Table Binding := []

def Scope.variableOf (s : Scope) (id : Nat) : String :=
  s.stem ++ toString id

def Scope.isOuter (s : Scope) : Bool :=
  s.stem == "op_"

/-- The program so far, and the graphs that are being emitted, the innermost first. -/
structure Emitter where
  unit : CodeUnit
  scopes : List Scope

def Emitter.start (types : GraphTypes) (comments : Bool) : Emitter where
  unit := { comments }
  scopes := [{ stem := "op_", types }]

def Emitter.binding? (e : Emitter) (id : Nat) : Option Binding :=
  e.scopes.getLast?.bind (·.bindings.get? id)

/-- A step of emission.  What was emitted before a failure stays. -/
abbrev Emission := ExceptT Failure (StateM Emitter)

namespace Emission

/-! ### Parts -/

def modifyUnit (f : CodeUnit → CodeUnit) : Emission Unit :=
  modify fun e => { e with unit := f e.unit }

def push (s : Statement) : Emission Unit :=
  modifyUnit (·.push s)

def scope : Emission Scope := do
  Outcome.lift (Outcome.ofOption (.internal .noScope) (← get).scopes.head?)

def declare (t : TupleType) : Emission String :=
  modifyGet fun e =>
    let (name, structs) := t.declareName.run e.unit.structs
    (name, { e with unit := { e.unit with structs } })

def includeFor (literals : List Literal) : Emission Unit :=
  if literals.any Literal.needsLimits then modifyUnit (·.addInclude "<limits>") else pure ()

def code (args : List TupleType) (e : Expr) : Emission String := do
  includeFor e.literals
  let (text, structs) ← Outcome.lift ((e.code args).run (← get).unit.structs)
  modifyUnit fun u => { u with structs }
  return text

/-- The result of a function as code; one that is not a tuple is put into the struct `struct`. -/
def construct (args : List TupleType) (function : Expr) (struct : String) : Emission String := do
  let text ← code args function
  match ← Outcome.lift (function.infer args) with
  | .tuple _ => return text
  | _ => return struct ++ "\x7b" ++ text ++ "\x7d"

def inputs (g : Dag) (id : Nat) : Emission (List Binding) := do
  let s ← scope
  Outcome.lift ((g.producers id).mapM fun p =>
    Outcome.ofOption (.unboundVariable p) (s.bindings.get? p))

def bind (id : Nat) (b : Binding) : Emission Unit := do
  let s ← scope
  modify fun e => { e with
    scopes := { s with bindings := s.bindings.put id b } :: e.scopes.tail }

/-! ### Operators -/

def groupArguments (keys : List Nat) (aggregates : List Aggregate) : String :=
  let key (k : Nat) := s!"Key<{k}>\x7b\x7d"
  let aggregate (a : Aggregate) := match a.fn, a.field with
    | .sum, some f => s!"Sum<{f}>\x7b\x7d"
    | .min, some f => s!"Min<{f}>\x7b\x7d"
    | .max, some f => s!"Max<{f}>\x7b\x7d"
    | _, _ => "Count\x7b\x7d"
  "std::make_tuple(" ++ ", ".intercalate (keys.map key) ++ "), std::make_tuple("
    ++ ", ".intercalate (aggregates.map aggregate) ++ ")"

def lambda (types : List String) (result : String) : String :=
  "[](" ++ ", ".intercalate (types.mapIdx fun i t => s!"const {t} &a{i}") ++ ") \x7b return "
    ++ result ++ "; \x7d"

/-- The value of the variable of an operator that has no lookup to make: a call that makes the
operator.  `struct` is the struct of its output. -/
def expression (node : Node Operator) (p : Primitive) (struct : String) (inputs : List Binding) :
    Emission String := do
  let input (slot : Nat) : Emission Binding :=
    Outcome.lift (Outcome.ofOption (.internal (.noInput node.name slot)) inputs[slot]?)
  match p with
  | .range r =>
    let number (i : Int64) := Kind.int64.literal (toString i.toInt)
    return s!"makeRangeOperator<{struct}>(" ++ number r.start ++ ", " ++ number r.stop ++ ", "
      ++ number r.step ++ ")"
  | .constantTuple values =>
    includeFor values
    return s!"makeConstantTupleOperator<{struct}>({struct}\x7b"
      ++ ", ".intercalate (values.map Literal.code) ++ "\x7d)"
  | .parameterLookup n _ =>
    return s!"makeParameterLookupOperator<{struct}>(input_{n}, input_{n}_size)"
  | .rowScan addIndex =>
    let i ← input 0
    return s!"makeRowScanOperator<{struct}" ++ (if addIndex then ", true" else "") ++ ">(&"
      ++ i.name ++ ")"
  | .filter predicate =>
    let i ← input 0
    let result ← code [i.type] predicate
    return s!"makeFilterOperator<{struct}>(&" ++ i.name ++ ", " ++ lambda [i.struct] result ++ ")"
  | .map function =>
    let i ← input 0
    let result ← construct [i.type] function struct
    return s!"makeMapOperator<{struct}>(&" ++ i.name ++ ", " ++ lambda [i.struct] result ++ ")"
  | .projection positions =>
    let i ← input 0
    let result ← code [i.type] (.tuple (positions.map (.field 0)))
    return s!"makeProjectionOperator<{struct}>(&" ++ i.name ++ ", " ++ lambda [i.struct] result
      ++ ")"
  | .reduce function =>
    let i ← input 0
    let result ← construct [i.type, i.type] function struct
    return s!"makeReduceOperator<{struct}>(&" ++ i.name ++ ", "
      ++ lambda [i.struct, i.struct] result ++ ")"
  | .reduceByKey function =>
    let i ← input 0
    let values := TupleType.positional (i.type.types.drop 1)
    let valueStruct ← declare values
    let result ← construct [values, values] function valueStruct
    return s!"makeReduceByKeyOperator<{struct}, {valueStruct}>(&" ++ i.name ++ ", "
      ++ lambda [valueStruct, valueStruct] result ++ ")"
  | .groupBy keys aggregates =>
    let i ← input 0
    return s!"makeGroupByOperator<{struct}>(&" ++ i.name ++ ", " ++ groupArguments keys aggregates
      ++ ")"
  | .join keys =>
    let l ← input 0
    let r ← input 1
    return s!"makeJoinOperator<{struct}, {keys}>(&" ++ l.name ++ ", &" ++ r.name ++ ")"
  | .cartesian =>
    let l ← input 0
    let r ← input 1
    return s!"makeCartesianOperator<{struct}>(&" ++ l.name ++ ", &" ++ r.name ++ ")"
  | .partition _ _ => throw (.unsupportedOperator node.id node.kind.tag.name)
  | .materializeRowVector =>
    let i ← input 0
    return s!"makeMaterializeRowVectorOperator<{struct}>(&" ++ i.name ++ ")"
  | .ensureSingleTuple =>
    let i ← input 0
    return s!"makeEnsureSingleTupleOperator<{struct}>(&" ++ i.name ++ ")"

def operatorFile (tag : Tag) : String :=
  "\"operators/" ++ tag.name ++ ".hpp\""

/-- Emits a primitive operator.  A look-up inside a pipeline is another name for the variable of the
pipeline's input. -/
def emit (g : Dag) (node : Node Operator) (p : Primitive) : Emission Unit := do
  let inputs ← inputs g node.id
  let s ← scope
  let type ← Outcome.lift (s.types.output node.id)
  let struct ← declare type
  let name := s.variableOf node.id
  let statement ← match p, s.isOuter with
    | .parameterLookup n _, false => do
      let target ← Outcome.lift (Outcome.ofOption
        (.invalidParameter (.unboundPipelineInput node.name n)) s.inputs[n]?)
      pure (Statement.reference name target)
    | p, _ => do
      let value ← expression node p struct inputs
      match p with
      | .parameterLookup n _ =>
        modifyUnit fun u => { u with parameters := NatSet.insert n u.parameters }
      | _ => pure ()
      modifyUnit (·.addInclude (operatorFile node.kind.tag))
      pure (Statement.declare name value)
  push (.comment node.name)
  push statement
  bind node.id ⟨name, type, struct⟩

def enterPipeline (g : Dag) (node : Node Operator) : Emission Unit := do
  let inputs ← inputs g node.id
  let s ← scope
  let types ← Outcome.lift (Outcome.ofOption (.internal (.innerTypesMissing node.name))
    (Table.get? s.types.inner node.id))
  push (.comment ("enter " ++ node.name))
  let inner : Scope := {
    stem := s.variableOf node.id ++ "_"
    types
    inputs := inputs.map (·.name) }
  modify fun e => { e with scopes := inner :: e.scopes }

/-- Ends the graph of a pipeline, whose variable is that of its sink. -/
def exitPipeline (node : Node Operator) (inner : Dag) : Emission Unit := do
  let s ← scope
  modify fun e => { e with scopes := e.scopes.tail }
  let sink ← Outcome.lift (Outcome.ofOption (.schema (.innerWithoutSink node.name)) inner.sink)
  let result ← Outcome.lift (Outcome.ofOption (.unboundVariable sink) (s.bindings.get? sink))
  let name := (← scope).variableOf node.id
  push (.comment ("exit " ++ node.name))
  push (.reference name result.name)
  bind node.id { result with name }

def visit (event : Event) : Emission Unit :=
  match event.node.kind, event.phase with
  | .primitive p, .enter => emit event.graph event.node p
  | .primitive _, .exit => pure ()
  | .pipeline _ _, .enter => enterPipeline event.graph event.node
  | .pipeline _ inner, .exit => exitPipeline event.node inner

/-! ### The end of a program -/

/-- The variable that holds the result as a row vector: that of the sink, or a new one that
materializes it. -/
def resultVector (sink : Nat) : Emission Binding := do
  let result ← Outcome.lift (Outcome.ofOption (.unboundVariable sink) ((← get).binding? sink))
  if result.type.rowVector?.isSome then return result
  let type := result.type.vectorOf
  let struct ← declare type
  modifyUnit (·.addInclude (operatorFile .materializeRowVector))
  push (.comment "materialize the result")
  push (.declare "op_result"
    (s!"makeMaterializeRowVectorOperator<{struct}>(&" ++ result.name ++ ")"))
  return ⟨"op_result", type, struct⟩

/-- Ends a program by the statements that collect the result of the sink. -/
def finish (sink : Nat) : Emission CodeUnit := do
  let result ← resultVector sink
  let element ← Outcome.lift (Outcome.ofOption (.internal .notRowVector) result.type.rowVector?)
  let ((elementType, needs), structs) := element.spell.run (← get).unit.structs
  modifyUnit fun u => { u with structs, elementType, elementRoots := needs.map structName }
  push (.comment "collecting the result")
  [result.name ++ ".open();",
    "const auto result = " ++ result.name ++ ".next().value;",
    "auto ret = (result_type *)malloc(sizeof(result_type));",
    "ret->data = result.v0.data;",
    "ret->size = result.v0.shape[0];",
    result.name ++ ".close();",
    "return ret;"].forM fun line => push (.line line)
  return (← get).unit

end Emission

end Dataflow
