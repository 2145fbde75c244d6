/-
**Rules.**

A rule changes a graph into one that computes the same, or finds nothing to change.  A change is
kept only if the graph is still valid and can be annotated afterwards.
-/

import Dataflow.Annotation
import Dataflow.Graph.Validity

namespace Dataflow

/-- A rule: its name, what it is for, and the graph that it makes of a graph, none if it finds
nothing to change. -/
structure Rule where
  name : String
  description : String := "No description available"
  apply : Dag → Outcome (Option Dag)

namespace Graph

def annotated (g : Dag) : Outcome Dag :=
  g.annotate.mapError (·.failure)

def changedInner? : Table (Outcome (Option Dag)) → Outcome (Option (Nat × Dag))
  | [] => return none
  | (id, result) :: rest => do
    match ← result with
    | some changed => return some (id, changed)
    | none => changedInner? rest

/-- The graph with one change: in the graph itself if `step` finds one, else in the first of the
graphs inside where there is one. -/
def firstChange (step : Dag → Outcome (Option Dag)) : Dag → Outcome (Option Dag) :=
  fold fun g inner => do
    match ← step g with
    | some changed => return some changed
    | none =>
      match ← changedInner? inner with
      | some (id, h) => return some (g.modify id fun n => { n with kind := n.kind.withInner h })
      | none => return none

/-- A number of a graph and of all graphs inside it, summed. -/
def total (count : Dag → Nat) : Dag → Nat :=
  fold fun g inner => inner.foldr (fun (_, n) sum => n + sum) (count g)

end Graph

/-- Applies a rule.  A graph that is not valid or cannot be annotated after the change is a failure
of the rule. -/
def Rule.attempt (rule : Rule) (g : Dag) : Outcome (Option Dag) := do
  match ← rule.apply g with
  | none => return none
  | some changed =>
    let checked : Outcome Dag := do
      changed.validate
      changed.annotated
    some <$> checked.mapError fun failure => .brokenByRule rule.name failure.message

end Dataflow
