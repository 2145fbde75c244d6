/-
**The tools.**

The tools reach files and streams through a host, so that they run on the files of a machine as well
as in memory.
-/

import Dataflow.Code.Program
import Dataflow.Graph.Document
import Dataflow.Optimization.Optimizer
import Dataflow.Settings
import Dataflow.Tool.Help

namespace Dataflow

/-- The files and streams that a tool works with.  Reading and writing files can fail. -/
structure Host (m : Type → Type) where
  readFile : Path → m (Option String)
  writeFile : Path → (text : String) → m Bool
  makeDirectory : Path → m Bool
  readInput : m String
  print : String → m Unit
  printError : String → m Unit

def OptimizerSettings.optimizer (s : OptimizerSettings) : Optimizer where
  rules := Rule.forLevel s.level
  maxRounds := s.maxRounds
  traced := s.traced

/-- Explanations of a graph before and after optimization, and the trace if there is one. -/
def Optimized.report (o : Optimized) (before : Dag) : String :=
  "Input DAG:\n" ++ before.explain ++ "\nOptimized DAG:\n" ++ o.graph.explain ++ "\n"
    ++ if o.applications.isEmpty then "" else "\n" ++ o.trace

namespace Tool

variable {m : Type → Type} [Monad m]

def readFile (h : Host m) (path : Path) : ExceptT Failure m String := do
  match ← h.readFile path with
  | some text => return text
  | none => throw (.file (.unreadable path.text))

def writeFile (h : Host m) (path : Path) (text : String) : ExceptT Failure m Unit := do
  if !(← h.writeFile path text) then throw (.file (.unwritable path.text))

/-- The settings of a file, or the defaults, with the level that was asked for. -/
def loadSettings (h : Host m) (path : Option Path) (level : Option Nat) :
    ExceptT Failure m Settings := do
  let s ← match path with
    | some path => Outcome.lift (Settings.read (← readFile h path))
    | none => pure {}
  return { s with optimizer := { s.optimizer with level := level.getD s.optimizer.level } }

def readGraph (h : Host m) (path : Option Path) : ExceptT Failure m Dag := do
  let text ← match path with
    | some path => readFile h path
    | none => h.readInput
  Outcome.lift (Graph.read .standard text)

/-- Writes a text to a file, or as a line to the standard output. -/
def writeText (h : Host m) (path : Option Path) (text : String) : ExceptT Failure m Unit :=
  match path with
  | some path => writeFile h path text
  | none => h.print (text ++ "\n")

/-- Writes the program of a graph, optimized first, into a directory, and gives the paths of the
source and the header. -/
def generateInto (h : Host m) (g : Dag) (s : Settings) (directory : Path) :
    ExceptT Failure m (Path × Path) := do
  let optimized ← Outcome.lift (s.optimizer.optimizer.run g)
  let program ← Outcome.lift (optimized.graph.program s.code.comments)
  if !(← h.makeDirectory directory) then throw (.file (.unwritable directory.text))
  let source := directory.join s.code.sourceFile
  let header := directory.join s.code.headerFile
  writeFile h source program.source
  writeFile h header program.header
  return (source, header)

def runOptimize (h : Host m) (o : Options) : ExceptT Failure m Unit := do
  let s ← loadSettings h o.settings o.level
  let optimizer := { s.optimizer with traced := s.optimizer.traced || o.explain }
  let g ← readGraph h o.input
  let optimized ← Outcome.lift (optimizer.optimizer.run g)
  if o.explain then h.printError (optimized.report g ++ "\n")
  writeText h o.output (← Outcome.lift optimized.graph.write)

def runGenerate (h : Host m) (o : Options) : ExceptT Failure m Unit := do
  let s ← loadSettings h o.settings o.level
  let g ← readGraph h o.input
  let (source, header) ← generateInto h g s (o.output.getD ⟨""⟩)
  h.print (source.text ++ "\n" ++ header.text ++ "\n")

/-- Runs a tool on a command line and gives its exit code: 1 for a failure, 2 for a wrong command
line. -/
def run (h : Host m) (tool : Tool) (args : List String) : m Nat := do
  match Options.read tool args with
  | .error .version => h.print (tool.name ++ " 0.1.0\n"); return 0
  | .error .help => h.print tool.help; return 0
  | .error .usage => h.printError tool.usage; return 2
  | .ok options =>
    let result ← (match tool with
      | .optimize => runOptimize h options
      | .generate => runGenerate h options).run
    match result with
    | .ok () => return 0
    | .error failure =>
      h.printError (tool.name ++ ": " ++ failure.message ++ "\n")
      return 1

end Tool

end Dataflow
