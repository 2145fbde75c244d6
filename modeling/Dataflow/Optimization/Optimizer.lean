/-
**The optimizer.**

An optimizer applies its rules in turn, round after round, until a round changes nothing or the
rounds are used up.
-/

import Dataflow.Explain
import Dataflow.Optimization.Fusion
import Dataflow.Optimization.Pushdown

namespace Dataflow

/-- The rules of an optimization level: none at level 0, pushing filters from level 1 on, and fusing
projections from level 2 on. -/
def Rule.forLevel (level : Nat) : List Rule :=
  (if 1 ≤ level then [pushdown] else []) ++ if 2 ≤ level then [fusion] else []

/-- Rules in the order of their application, a limit of rounds, and whether graphs are explained
before and after each change. -/
structure Optimizer where
  rules : List Rule
  maxRounds : Nat := 16
  traced : Bool := false

def Optimizer.forLevel (level : Nat) : Optimizer where
  rules := Rule.forLevel level

/-- A change by a rule, with explanations of the graph before and after it. -/
structure Application where
  rule : String
  before : String
  after : String

/-- An optimized graph, the rounds that it took, the number of changes, and the changes themselves
if they were traced. -/
structure Optimized where
  graph : Dag
  rounds : Nat := 0
  changes : Nat := 0
  applications : List Application := []

namespace Optimized

def applicationText (number : Nat) (a : Application) : String :=
  s!"\n--- Rule {number} applied: {a.rule} ---\nBefore:\n" ++ Text.indent a.before "  "
    ++ "\nAfter:\n" ++ Text.indent a.after "  " ++ "\n"

def trace (o : Optimized) : String :=
  s!"Optimization completed in {o.rounds} iterations, {o.changes} rules applied\n"
    ++ if o.applications.isEmpty then "  (no trace available)\n"
      else String.join (o.applications.mapIdx fun i a => applicationText (i + 1) a)

end Optimized

namespace Optimizer

def applyRule (o : Optimizer) (state : Optimized) (rule : Rule) : Outcome Optimized := do
  match ← rule.attempt state.graph with
  | none => return state
  | some graph =>
    return { state with
      graph
      changes := state.changes + 1
      applications := state.applications ++
        if o.traced then [⟨rule.name, state.graph.explain, graph.explain⟩] else [] }

def round (o : Optimizer) (state : Optimized) : Outcome Optimized :=
  o.rules.foldlM o.applyRule { state with rounds := state.rounds + 1 }

/-- Goes through rounds until one changes nothing, at most `rounds` of them. -/
def runRounds (o : Optimizer) : (rounds : Nat) → Optimized → Outcome Optimized
  | 0, state => return state
  | rounds + 1, state => do
    let next ← o.round state
    if next.changes = state.changes then return next else o.runRounds rounds next

def run (o : Optimizer) (g : Dag) : Outcome Optimized := do
  g.validate
  let g ← g.annotated
  o.runRounds o.maxRounds { graph := g }

end Optimizer

end Dataflow
