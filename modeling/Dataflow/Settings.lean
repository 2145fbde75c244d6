/-
**Settings.**

Settings have a section each for the optimizer, for code generation and for plans.  A text of
settings only needs to give what differs from the defaults.
-/

import Dataflow.Failure
import Dataflow.Json.Source
import Dataflow.Path

namespace Dataflow

structure OptimizerSettings where
  level : Nat := 1
  maxRounds : Nat := 16
  traced : Bool := false
deriving DecidableEq, Repr

structure CodeSettings where
  sourceFile : Path := ⟨"execute.cpp"⟩
  headerFile : Path := ⟨"execute.h"⟩
  comments : Bool := true
deriving BEq, Repr

structure PlanSettings where
  /-- How many plans there may be; none means any number. -/
  maxPlans : Option Nat := none
deriving DecidableEq, Repr

structure Settings where
  optimizer : OptimizerSettings := {}
  code : CodeSettings := {}
  plans : PlanSettings := {}
deriving BEq, Repr

/-! ### Writing -/

def Settings.toJson (s : Settings) : Json :=
  .object [
    ("optimizer", .object [
      ("level", .ofNat s.optimizer.level),
      ("max_iterations", .ofNat s.optimizer.maxRounds),
      ("enable_trace", .bool s.optimizer.traced)]),
    ("codegen", .object [
      ("source_file", .string s.code.sourceFile.text),
      ("header_file", .string s.code.headerFile.text),
      ("emit_comments", .bool s.code.comments)]),
    ("runtime", .object [("max_plans", .ofOption .ofNat s.plans.maxPlans)])]

def Settings.text (s : Settings) : String :=
  s.toJson.pretty

/-! ### Reading -/

namespace Json.Source

def nat? : Source → Option Nat
  | number n => n.value?.bind Json.nat?
  | _ => none

def bool? : Source → Option Bool
  | bool b => some b
  | _ => none

def string? : Source → Option String
  | string pieces => text? pieces
  | _ => none

def path? (s : Source) : Option Path :=
  Path.mk <$> s.string?

/-- A part that may be absent; then its default stands. -/
def orDefault {α : Type} (read? : Source → Option α) (default : α) : Option Source → Option α
  | some part => read? part
  | none => some default

end Json.Source

open Json.Source in
/-- The settings of the optimizer that a text gives.  The level has 32 bits. -/
def OptimizerSettings.ofSource? (s : Json.Source) : Option OptimizerSettings := do
  let default : OptimizerSettings := {}
  match ← s.fields? ["level", "max_iterations", "enable_trace"] with
  | [level, maxRounds, traced] =>
    let level ← orDefault (fun s => s.nat?.filter (· < UInt32.size)) default.level level
    let maxRounds ← orDefault nat? default.maxRounds maxRounds
    let traced ← orDefault bool? default.traced traced
    return { level, maxRounds, traced }
  | _ => none

open Json.Source in
def CodeSettings.ofSource? (s : Json.Source) : Option CodeSettings := do
  let default : CodeSettings := {}
  match ← s.fields? ["source_file", "header_file", "emit_comments"] with
  | [sourceFile, headerFile, comments] =>
    let sourceFile ← orDefault path? default.sourceFile sourceFile
    let headerFile ← orDefault path? default.headerFile headerFile
    let comments ← orDefault bool? default.comments comments
    return { sourceFile, headerFile, comments }
  | _ => none

open Json.Source in
def PlanSettings.ofSource? (s : Json.Source) : Option PlanSettings := do
  match ← s.fields? ["max_plans"] with
  | [maxPlans] =>
    let limit? : Json.Source → Option (Option Nat)
      | .null => some none
      | s => some <$> s.nat?
    return { maxPlans := ← orDefault limit? none maxPlans }
  | _ => none

open Json.Source in
def Settings.ofSource? (s : Json.Source) : Option Settings := do
  match ← s.fields? ["optimizer", "codegen", "runtime"] with
  | [optimizer, code, plans] =>
    let optimizer ← orDefault OptimizerSettings.ofSource? {} optimizer
    let code ← orDefault CodeSettings.ofSource? {} code
    let plans ← orDefault PlanSettings.ofSource? {} plans
    return { optimizer, code, plans }
  | _ => none

def Settings.read (text : String) : Outcome Settings :=
  Outcome.ofOption (.parse .invalidConfiguration)
    ((Json.Source.read? text).bind Settings.ofSource?)

end Dataflow
