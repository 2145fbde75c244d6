/-
**Generated programs.**
-/

import Dataflow.Code.Emission
import Dataflow.Graph.Validity

namespace Dataflow

structure Program where
  source : String
  header : String
deriving DecidableEq, Repr

namespace Graph

def codeUnit (g : Dag) (comments : Bool) : Outcome CodeUnit := do
  g.validate
  let types ← g.types
  let sink ← Outcome.ofOption (.invalidParameter .noSink) g.sink
  let emission : Emission CodeUnit := do
    g.traverse .forward true Emission.visit
    Emission.finish sink
  (emission.run.run (Emitter.start types comments)).1

/-- The program of a graph, which is valid and typed. -/
def program (g : Dag) (comments : Bool) : Outcome Program := do
  let u ← g.codeUnit comments
  return ⟨u.source, u.header⟩

end Graph

end Dataflow
