/-
**The command line.**

The first argument names the tool, and the others are its own.
-/

import Dataflow.Tool.Run

namespace Dataflow

/-- The result of an action, none if it fails. -/
def attempt {α : Type} (action : IO α) : IO (Option α) :=
  tryCatch (some <$> action) fun _ => return none

def machine : Host IO where
  readFile path := attempt (IO.FS.readFile path.text)
  writeFile path text := return (← attempt (IO.FS.writeFile path.text text)).isSome
  makeDirectory path := return (← attempt (IO.FS.createDirAll path.text)).isSome
  readInput := do (← IO.getStdin).readToEnd
  print text := do (← IO.getStdout).putStr text
  printError text := do (← IO.getStderr).putStr text

end Dataflow

open Dataflow in
def main (args : List String) : IO UInt32 := do
  match args with
  | name :: rest =>
    match Tool.ofName? name with
    | some tool => return UInt32.ofNat (← Tool.run machine tool rest)
    | none => return 2
  | [] => return 2
