/-
**Failures.**

Whatever can go wrong is a `Failure`: a class of failure together with its cause.  Causes are kept
as data, and their wording is in one place, `Failure.message`.  A cause that arises inside a part of
a plan is wrapped by the name of that part, once per level.

Main results:

* `Outcome.bind_eq_ok_iff` — when two steps succeed.
-/

import Dataflow.Schema
import Dataflow.Value.Basic

namespace Dataflow

inductive ParseFault where
  | note (text : String)
  | malformedGraph
  | malformedInputs
  | invalidConfiguration
  | noOperatorList
  | recordNotObject (index : Nat)
  | notAnId (what : String) (found : Json)
  | duplicateId (id : Nat)
  | noTag (index : Nat)
  | predecessorsNotArray (id : Nat)
  | unknownPredecessor (id predecessor : Nat)
  | unknownSink (id : Nat)
  | noLastOperator
  | manyLastOperators (count : Nat)
  | noInputCount
  | noInnerGraph
  | inputsNotArray
  | unknownKind (tag : String)
  | valueMismatch (expected : FieldType) (found : Json)
  | outOfBounds (value : Int64) (kind : Kind)
  | tupleMismatch (expected : TupleType) (found : Json)
  | fieldCount (expected : TupleType) (found : Nat)
  | inOperator (tag : String) (fault : ParseFault)

inductive SchemaFault where
  | note (text : String)
  | duplicateName (name : String)
  | positionOutOfRange (position : Nat) (type : TupleType)
  | valueCount (type : TupleType) (found : Nat)
  | valueType (value : Value) (field : Named FieldType)
  | noSuchField (arg index : Nat) (arguments : List TupleType)
  | noSuchMember (arg index : Nat)
  | cannotCombine (symbol : String) (left right : FieldType)
  | cannotApply (symbol : String) (operand : FieldType)
  | inputCount (tag : String) (expected found : Nat)
  | parameterOutOfRange (inputs parameter : Nat)
  | parameterType (declared input : TupleType)
  | parameterUntyped (parameter : Nat)
  | notScannable (type : TupleType)
  | predicateNotBool (found : FieldType)
  | noKeyField
  | keyNotAtomic (found : FieldType)
  | foldResult (expected : TupleType) (found : FieldType)
  | groupKeyOutOfRange (key : Nat) (type : TupleType)
  | groupKeyNotAtomic (key : Nat) (found : FieldType)
  | aggregateWithoutField (name : String)
  | aggregateOutOfRange (field : Nat) (type : TupleType)
  | aggregateNotNumeric (name : String) (found : FieldType)
  | joinTooFewFields (keys : Nat)
  | joinKeyTypes (key : Nat) (left right : FieldType)
  | joinKeyNotAtomic (key : Nat) (found : FieldType)
  | partitionKeyOutOfRange (key : Nat) (type : TupleType)
  | partitionKeyNotInteger (found : FieldType)
  | innerWithoutSink (name : String)
  | pipelineWithoutSink
  | inOperator (name : String) (fault : SchemaFault)

inductive CycleFault where
  | note (text : String)
  | closing (source target : Nat)
  | stuck (ids : List Nat)

inductive SlotFault where
  | note (text : String)
  | noSource (id : Nat)
  | noTarget (id : Nat)
  | noOutputSlot (name : String) (slot : Nat)
  | noInputSlot (name : String) (slot : Nat)
  | alreadyBound (id slot : Nat)
  | boundTwice (id slot : Nat)
  | notBound (name : String) (slot : Nat)
  | predecessorCount (name : String) (slots found : Nat)

inductive ParameterFault where
  | note (text : String)
  | idInUse (id : Nat)
  | unknownOperator (id : Nat)
  | zeroStep
  | noPartitions
  | readsBeyondInputs (name : String) (parameter inputs : Nat)
  | sinkMissing (id : Nat)
  | noSink
  | inputCount (expected found : Nat)
  | inputType (index : Nat) (found expected : TupleType)
  | undeclaredType (name : String)
  | conflictingTypes (parameter : Nat) (first second : TupleType)
  | gapInInputs (parameter : Nat)
  | registryFull (limit : Nat)
  | unknownPlan (id : Nat)
  | unboundPipelineInput (name : String) (parameter : Nat)
  | inOperator (name : String) (fault : ParameterFault)

inductive ExecutionFault where
  | note (text : String)
  | missingArgument (arg index : Nat)
  | expectedBool (found : String)
  | cannotApply (symbol found : String)
  | divisionByZero
  | requiresBool (symbol : String)
  | notForBool (symbol : String)
  | cannotCombine (symbol left right : String)
  | unboundInput (parameter : Nat)
  | notScannable
  | predicateResult (found : String)
  | missingField (position : Nat)
  | noKeyField
  | tooFewKeyFields (keys : Nat)
  | partitionKeyNotInteger
  | notSingle (count : Nat)
  | missingGroupKey (key : Nat)
  | sumWithoutField
  | extremumWithoutField
  | cannotSum (found : String)
  | cannotCompare (left right : String)
  | notOneRowVector (count : Nat)
  | notRowVector
  | inOperator (name : String) (fault : ExecutionFault)

/-- What a well-formed plan never runs into. -/
inductive InternalFault where
  | note (text : String)
  | untyped (id : Nat)
  | evaluatedEarly (name : String)
  | operandMissing (slot : Nat)
  | innerUntyped (name : String)
  | sinkNotEvaluated (id : Nat)
  | producerUnbound (id slot : Nat)
  | projectionUnbound (id : Nat)
  | noInput (name : String) (slot : Nat)
  | innerTypesMissing (name : String)
  | notRowVector
  | noScope

inductive FileFault where
  | unreadable (path : String)
  | unwritable (path : String)

inductive Failure where
  | parse (fault : ParseFault)
  | unknownOperator (tag : String)
  | schema (fault : SchemaFault)
  | cyclicGraph (fault : CycleFault)
  | brokenByRule (rule reason : String)
  | danglingEdge (id edges : Nat)
  | invalidSlot (fault : SlotFault)
  | unsupportedOperator (id : Nat) (tag : String)
  | unboundVariable (id : Nat)
  | invalidParameter (fault : ParameterFault)
  | execution (fault : ExecutionFault)
  | internal (fault : InternalFault)
  | file (fault : FileFault)

/-! ### Wording -/

def ParseFault.message : ParseFault → String
  | note text => text
  | malformedGraph => "malformed DAG document: not a JSON text"
  | malformedInputs => "invalid plan inputs: not a JSON text"
  | invalidConfiguration => "invalid configuration: a field is missing or has the wrong type"
  | noOperatorList => "DAG document needs a 'dag' array"
  | recordNotObject index => s!"record {index} is not an object"
  | notAnId what found => s!"{what} must be a non-negative integer, got " ++ found.compact
  | duplicateId id => s!"duplicate operator id {id}"
  | noTag index => s!"record {index} needs a string 'op'"
  | predecessorsNotArray id => s!"'predecessors' of operator {id} is not an array"
  | unknownPredecessor id predecessor =>
    s!"operator {id} names unknown predecessor {predecessor}"
  | unknownSink id => s!"sink {id} is not an operator of the DAG"
  | noLastOperator => "DAG has no operator without consumers"
  | manyLastOperators count =>
    s!"DAG has {count} operators without consumers and no explicit 'sink'"
  | noInputCount => "pipeline needs an integer 'num_inputs'"
  | noInnerGraph => "pipeline needs an 'inner_dag'"
  | inputsNotArray => "plan inputs must be a JSON array"
  | unknownKind tag => s!"unknown atomic type '{tag}'"
  | valueMismatch expected found =>
    "expected a value of type " ++ expected.text ++ ", found " ++ found.compact
  | outOfBounds value kind => s!"{value.toInt} does not fit in " ++ kind.tag
  | tupleMismatch expected found =>
    "expected a tuple of type " ++ expected.text ++ ", found " ++ found.compact
  | fieldCount expected found =>
    s!"expected {expected.length} fields for " ++ expected.text ++ s!", found {found}"
  | inOperator tag fault => s!"'{tag}': " ++ fault.message

def SchemaFault.message : SchemaFault → String
  | note text => text
  | duplicateName name => s!"duplicate field name '{name}' in tuple type"
  | positionOutOfRange position type =>
    s!"projection position {position} out of range for " ++ type.text
  | valueCount type found =>
    "tuple of type " ++ type.text ++ s!" needs {type.length} values, got {found}"
  | valueType value field =>
    "value " ++ value.text ++ " does not conform to field '" ++ field.name ++ "' of type "
      ++ field.type.text
  | noSuchField arg index arguments =>
    s!"field {index} of argument {arg} does not exist (arguments: "
      ++ ", ".intercalate (arguments.map TupleType.text) ++ ")"
  | noSuchMember arg index => s!"field {index} of argument {arg} does not exist"
  | cannotCombine symbol left right =>
    s!"operator '{symbol}' cannot combine " ++ left.text ++ " and " ++ right.text
  | cannotApply symbol operand => s!"operator '{symbol}' cannot be applied to " ++ operand.text
  | inputCount tag expected found => s!"{tag} expects {expected} input(s), {found} bound"
  | parameterOutOfRange inputs parameter =>
    s!"pipeline has {inputs} input(s), parameter {parameter} is out of range"
  | parameterType declared input =>
    "declared type " ++ declared.text ++ " does not match pipeline input " ++ input.text
  | parameterUntyped parameter => s!"parameter {parameter} needs an output_type outside a pipeline"
  | notScannable type => "row scan needs an array in field 0, got " ++ type.text
  | predicateNotBool found => "filter predicate must be bool, got " ++ found.text
  | noKeyField => "reduce by key needs a key field"
  | keyNotAtomic found => "reduce by key needs an atomic key, got " ++ found.text
  | foldResult expected found =>
    "fold function must return " ++ expected.text ++ ", got " ++ found.text
  | groupKeyOutOfRange key type => s!"group key {key} out of range for " ++ type.text
  | groupKeyNotAtomic key found => s!"group key {key} must be atomic, got " ++ found.text
  | aggregateWithoutField name => s!"aggregate {name} needs a field"
  | aggregateOutOfRange field type => s!"aggregate field {field} out of range for " ++ type.text
  | aggregateNotNumeric name found =>
    s!"aggregate {name} needs a numeric field, got " ++ found.text
  | joinTooFewFields keys =>
    s!"join on {keys} key(s) needs at least that many fields on both sides"
  | joinKeyTypes key left right =>
    s!"join key {key} types differ: " ++ left.text ++ " vs " ++ right.text
  | joinKeyNotAtomic key found => s!"join key {key} must be atomic, got " ++ found.text
  | partitionKeyOutOfRange key type => s!"partition key {key} out of range for " ++ type.text
  | partitionKeyNotInteger found => "partition key must be an integer, got " ++ found.text
  | innerWithoutSink name => s!"inner DAG of {name} has no sink"
  | pipelineWithoutSink => "pipeline inner DAG has no sink"
  | inOperator name fault => s!"{name}: " ++ fault.message

def CycleFault.message : CycleFault → String
  | note text => text
  | closing source target => s!"edge {source} -> {target} would close a cycle"
  | stuck ids =>
    "operators " ++ Text.bracketed (ids.map toString) ++ " are part of or downstream of a cycle"

def SlotFault.message : SlotFault → String
  | note text => text
  | noSource id => s!"edge source {id} does not exist"
  | noTarget id => s!"edge target {id} does not exist"
  | noOutputSlot name slot => s!"{name} has no output port {slot}"
  | noInputSlot name slot => s!"{name} has no input port {slot}"
  | alreadyBound id slot => s!"input port {slot} of operator {id} is already bound"
  | boundTwice id slot => s!"input port {slot} of operator {id} is bound more than once"
  | notBound name slot => s!"input port {slot} of {name} is not bound"
  | predecessorCount name slots found =>
    s!"{name} has {slots} input port(s) but {found} predecessor(s)"

def ParameterFault.message : ParameterFault → String
  | note text => text
  | idInUse id => s!"operator id {id} is already in use"
  | unknownOperator id => s!"unknown operator {id}"
  | zeroStep => "range step must be non-zero"
  | noPartitions => "partition count must be positive"
  | readsBeyondInputs name parameter inputs =>
    s!"{name} reads input {parameter} of a pipeline with {inputs} input(s)"
  | sinkMissing id => s!"sink {id} does not exist"
  | noSink => "DAG has no sink"
  | inputCount expected found => s!"plan expects {expected} input(s), got {found}"
  | inputType index found expected =>
    s!"input {index} has type " ++ found.text ++ ", expected " ++ expected.text
  | undeclaredType name => s!"{name} does not declare its type"
  | conflictingTypes parameter first second =>
    s!"parameter {parameter} is declared as both " ++ first.text ++ " and " ++ second.text
  | gapInInputs parameter =>
    s!"plan inputs must be numbered from 0, parameter {parameter} is missing"
  | registryFull limit => s!"plan registry is full ({limit} plans)"
  | unknownPlan id => s!"unknown plan {id}"
  | unboundPipelineInput name parameter =>
    s!"{name} reads pipeline input {parameter}, which is not bound"
  | inOperator name fault => s!"in {name}: " ++ fault.message

def ExecutionFault.message : ExecutionFault → String
  | note text => text
  | missingArgument arg index => s!"field {index} of argument {arg} is missing"
  | expectedBool found => s!"expected bool, found {found}"
  | cannotApply symbol found => s!"operator '{symbol}' cannot be applied to {found}"
  | divisionByZero => "integer division by zero"
  | requiresBool symbol => s!"'{symbol}' requires bool operands"
  | notForBool symbol => s!"'{symbol}' cannot be applied to bool operands"
  | cannotCombine symbol left right => s!"'{symbol}' cannot combine {left} and {right}"
  | unboundInput parameter => s!"input {parameter} is not bound"
  | notScannable => "row scan input is not an array"
  | predicateResult found => s!"predicate returned {found}, expected bool"
  | missingField position => s!"field {position} is missing"
  | noKeyField => "tuple has no key field"
  | tooFewKeyFields keys => s!"tuple has fewer than {keys} key fields"
  | partitionKeyNotInteger => "partition key is not an integer"
  | notSingle count => s!"expected exactly one tuple, got {count}"
  | missingGroupKey key => s!"group key {key} is missing"
  | sumWithoutField => "sum needs a field"
  | extremumWithoutField => "min/max needs a field"
  | cannotSum found => s!"cannot sum a {found} value"
  | cannotCompare left right => s!"cannot compare {left} with {right}"
  | notOneRowVector count => s!"expected one row vector, got {count} tuples"
  | notRowVector => "result is not a row vector"
  | inOperator name fault => s!"{name}: " ++ fault.message

def InternalFault.message : InternalFault → String
  | note text => text
  | untyped id => s!"no inferred type for operator {id}"
  | evaluatedEarly name => s!"{name} evaluated before its input"
  | operandMissing slot => s!"input {slot} is not bound"
  | innerUntyped name => s!"inner DAG of {name} is not typed"
  | sinkNotEvaluated id => s!"sink {id} was not evaluated"
  | producerUnbound id slot => s!"input {slot} of operator {id} is unbound"
  | projectionUnbound id => s!"projection {id} has no input"
  | noInput name slot => s!"{name} has no input {slot}"
  | innerTypesMissing name => s!"no inferred types for the inner DAG of {name}"
  | notRowVector => "result is not a row vector"
  | noScope => "no generation scope"

def FileFault.message : FileFault → String
  | unreadable path => s!"cannot read {path}"
  | unwritable path => s!"cannot write {path}"

namespace Failure

def message : Failure → String
  | parse fault => "ParseError: " ++ fault.message
  | unknownOperator tag => s!"UnknownOperatorError: unknown operator tag '{tag}'"
  | schema fault => "SchemaError: " ++ fault.message
  | cyclicGraph fault => "CyclicGraphError: " ++ fault.message
  | brokenByRule rule reason =>
    s!"InvalidRewriteError: pass '{rule}' produced an invalid graph: {reason}"
  | danglingEdge id edges =>
    s!"DanglingEdgeError: operator {id} is still referenced by {edges} edge(s)"
  | invalidSlot fault => "InvalidPortError: " ++ fault.message
  | unsupportedOperator id tag =>
    s!"UnsupportedOperatorError: no code emission rule for operator {id} ({tag})"
  | unboundVariable id => s!"UnboundVariableError: predecessor {id} has no generated variable"
  | invalidParameter fault => "InvalidParameter: " ++ fault.message
  | execution fault => "ExecutionError: " ++ fault.message
  | internal fault => "InternalError: " ++ fault.message
  | file fault => "IoError: " ++ fault.message

def isParse : Failure → Bool
  | parse _ => true
  | unknownOperator _ => true
  | _ => false

def isGraph : Failure → Bool
  | cyclicGraph _ => true
  | brokenByRule _ _ => true
  | danglingEdge _ _ => true
  | invalidSlot _ => true
  | _ => false

/-- Names the operator in which types do not fit together. -/
def inTypedOperator (name : String) : Failure → Failure
  | schema fault => schema (.inOperator name fault)
  | failure => failure

def inRunningOperator (name : String) : Failure → Failure
  | execution fault => execution (.inOperator name fault)
  | failure => failure

def inCheckedOperator (name : String) : Failure → Failure
  | invalidParameter fault => invalidParameter (.inOperator name fault)
  | failure => failure

def inRecord (tag : String) : Failure → Failure
  | parse fault => parse (.inOperator tag fault)
  | failure => failure

end Failure

abbrev Outcome (α : Type) := Except Failure α

/-- The value of an option, or a failure in its place. -/
def Outcome.ofOption {α : Type} (failure : Failure) : Option α → Outcome α
  | some a => .ok a
  | none => .error failure

def Outcome.lift {m : Type → Type} [Monad m] {α : Type} (outcome : Outcome α) :
    ExceptT Failure m α :=
  ExceptT.mk (pure outcome)

@[simp] theorem Outcome.ofOption_some {α : Type} (failure : Failure) (a : α) :
    Outcome.ofOption failure (some a) = .ok a := rfl

@[simp] theorem Outcome.ofOption_none {α : Type} (failure : Failure) :
    Outcome.ofOption failure (none : Option α) = .error failure := rfl

theorem Outcome.ofOption_eq_ok_iff {α : Type} {failure : Failure} {o : Option α} {a : α} :
    Outcome.ofOption failure o = .ok a ↔ o = some a := by
  cases o <;> simp

/-- Two steps succeed if the first does and the second does with its result. -/
theorem Outcome.bind_eq_ok_iff {α β : Type} {x : Outcome α} {f : α → Outcome β} {b : β} :
    (x >>= f) = .ok b ↔ ∃ a, x = .ok a ∧ f a = .ok b := by
  cases x with
  | error failure => simp [bind, Except.bind]
  | ok a => simp [bind, Except.bind]

end Dataflow
