/-
**Paths.**

A path leads from a directory to a file, one step per name.  There are many ways to write the same
steps: slashes may be doubled, a single dot stays where it is, and a slash at the end adds nothing.
Only a dot at the very beginning is a step of its own, since it says where the path begins.
-/

namespace Dataflow

structure Path where
  text : String
deriving Repr

/-- A step of a path: to the root, to the current directory, to the directory above, or to a
name. -/
inductive PathStep where
  | root
  | here
  | up
  | name (text : String)
deriving DecidableEq, Repr

namespace PathStep

/-- The step that a piece between slashes makes; an empty piece and a dot make none. -/
def ofPiece? (piece : String) : Option PathStep :=
  if piece = "" ∨ piece = "." then none
  else if piece = ".." then some up
  else some (name piece)

def piece : PathStep → String
  | root => ""
  | here => "."
  | up => ".."
  | name text => text

end PathStep

namespace Path

def isAbsolute (p : Path) : Bool :=
  p.text.startsWith "/"

def pieces (p : Path) : List String :=
  p.text.splitOn "/"

def steps (p : Path) : List PathStep :=
  let rest := p.pieces.filterMap PathStep.ofPiece?
  if p.isAbsolute then .root :: rest
  else if p.pieces.head? = some "." then .here :: rest
  else rest

/-- Paths are compared by their steps. -/
instance : BEq Path := ⟨fun p q => p.steps == q.steps⟩

/-- A path continued by another one.  An absolute path stands for itself. -/
def join (directory file : Path) : Path :=
  if file.isAbsolute then file
  else if directory.text.endsWith "/" ∨ directory.text = "" then ⟨directory.text ++ file.text⟩
  else ⟨directory.text ++ "/" ++ file.text⟩

/-- All beginnings of a list but itself and the empty one, the longest first. -/
def beginnings {α : Type} (steps : List α) : List (List α) :=
  ((List.range steps.length).drop 1).reverse.map steps.take

/-- The pieces of the paths that lead to the directories on the way, the longest first. -/
def ancestors (p : Path) : List (List String) :=
  (beginnings p.steps).map (·.map PathStep.piece)

end Path

end Dataflow
