/-
**Trees drawn as text.**

A tree is drawn with one line per node, children below their parent behind `├─ ` or `└─ `.  Notes
stand below the label of their node, aligned with its children.
-/

import Dataflow.Text.Basic

namespace Dataflow.Text

/-- A labelled tree: a name, details shown in parentheses, notes, and children. -/
inductive Tree where
  | node (name : String) (details : Option String) (notes : List String) (children : List Tree)

namespace Tree

def children : Tree → List Tree
  | node _ _ _ children => children

def name : Tree → String
  | node name _ _ _ => name

def details : Tree → Option String
  | node _ details _ _ => details

/-- The line of a node: its name, then its details in parentheses. -/
def label (t : Tree) : String :=
  match t.details with
  | some details => t.name ++ " (" ++ details ++ ")\n"
  | none => t.name ++ "\n"

mutual

/-- What stands below the label of a node, every line behind `margin`. -/
def body (margin : String) : Tree → String
  | node _ _ notes children =>
    let bar := if children.isEmpty then "   " else "│  "
    String.join (notes.map fun note => margin ++ bar ++ note ++ "\n") ++ branches margin children

/-- The children of a node, the last one behind a corner. -/
def branches (margin : String) : List Tree → String
  | [] => ""
  | [child] => margin ++ "└─ " ++ child.label ++ child.body (margin ++ "   ")
  | child :: next :: rest =>
    margin ++ "├─ " ++ child.label ++ child.body (margin ++ "│  ")
      ++ branches margin (next :: rest)

end

def render (t : Tree) : String :=
  t.label ++ t.body ""

end Tree

end Dataflow.Text
