/-
**Files in memory.**

A host whose files, directories and streams are values.  Files lie in a tree of directories as they
do on a machine: a path is followed name by name, and each name but the last has to lead to a
directory. A name has at most 255 bytes and a path fewer than 4096, and none of them holds a zero
character. The tools work in one directory of the tree, where relative paths begin.
-/

import Dataflow.Tool.Run

namespace Dataflow

/-- The names that lead to a file or to a directory from the root. -/
abbrev Place := List String

/-- Files and directories by their places, what can still be read from the standard input, and what
was printed. -/
structure Memory where
  files : List (Place × String) := []
  directories : List Place := []
  input : String := ""
  output : String := ""
  errors : String := ""

/-- Files that stand for no text: one that takes anything and is empty, one that takes nothing, and
the streams. -/
inductive Device where
  | null
  | full
  | input
  | output
  | errors
deriving DecidableEq, Repr

def Device.at? : Place → Option Device
  | ["dev", "null"] => some .null
  | ["dev", "full"] => some .full
  | ["dev", "stdin"] => some .input
  | ["dev", "stdout"] => some .output
  | ["dev", "stderr"] => some .errors
  | _ => none

/-- Why a path leads nowhere: there is nothing under a name, there is something already, or the path
cannot be followed. -/
inductive Obstacle where
  | missing
  | occupied
  | refused
deriving DecidableEq, Repr

namespace Memory

/-! ### Places -/

/-- Where relative paths begin. -/
def home : Place := ["tmp", "work"]

def file? (m : Memory) (place : Place) : Option String :=
  (m.files.find? (·.1 == place)).map (·.2)

def isDirectory (m : Memory) (place : Place) : Bool :=
  m.directories.contains place

def isTaken (m : Memory) (place : Place) : Bool :=
  m.isDirectory place || (m.file? place).isSome || (Device.at? place).isSome

def admitsName (name : String) : Bool :=
  name.utf8ByteSize ≤ 255

def admits (p : Path) : Bool :=
  p.text ≠ "" && p.text.utf8ByteSize < 4096 && !p.text.toList.contains '\x00'

def start (p : Path) : Place :=
  if p.isAbsolute then [] else home

def follow (m : Memory) (here : Place) (piece : String) : Except Obstacle Place :=
  if !m.isDirectory here then .error .refused
  else match PathStep.ofPiece? piece with
    | some (.name name) =>
      if !admitsName name then .error .refused
      else if m.isTaken (here ++ [name]) then .ok (here ++ [name])
      else .error .missing
    | some .up => .ok here.dropLast
    | _ => .ok here

def locateFrom (m : Memory) (here : Place) (pieces : List String) : Except Obstacle Place :=
  pieces.foldlM m.follow here

def locate (m : Memory) (p : Path) : Except Obstacle Place :=
  if admits p then m.locateFrom (start p) p.pieces else .error .refused

/-- The place of the last of some pieces, which need not be taken.  It is in a directory. -/
def place (m : Memory) (here : Place) (pieces : List String) (name : String) :
    Except Obstacle Place := do
  let directory ← m.locateFrom here pieces
  if m.isDirectory directory && admitsName name then return directory ++ [name]
  throw .refused

def target (m : Memory) (p : Path) : Except Obstacle Place :=
  if !admits p then .error .refused
  else match p.pieces.getLast?.bind PathStep.ofPiece? with
    | some (.name name) => m.place (start p) p.pieces.dropLast name
    | _ => .error .refused

/-! ### Changes -/

def putFile (m : Memory) (place : Place) (text : String) : Memory :=
  { m with files := m.files.filter (·.1 != place) ++ [(place, text)] }

/-- The text at a place, and what is left to read. -/
def readAt (m : Memory) (place : Place) : Option (String × Memory) :=
  match Device.at? place with
  | some .null => some ("", m)
  | some .input => some (m.input, { m with input := "" })
  | some _ => none
  | none => (m.file? place).map (·, m)

def writeAt (m : Memory) (place : Place) (text : String) : Option Memory :=
  match Device.at? place with
  | some .null => some m
  | some .output => some { m with output := m.output ++ text }
  | some .errors => some { m with errors := m.errors ++ text }
  | some _ => none
  | none => if m.isDirectory place then none else some (m.putFile place text)

/-- Makes the directory of some pieces.  Slashes at the end add nothing, and what is reached by dots
is there already. -/
def makeDirectory (m : Memory) (here : Place) (pieces : List String) : Except Obstacle Memory :=
  let pieces := (pieces.reverse.dropWhile (· = "")).reverse
  match pieces.getLast? with
  | none => .error .occupied
  | some last =>
    match PathStep.ofPiece? last with
    | some (.name name) => do
      let place ← m.place here pieces.dropLast name
      if m.isTaken place then throw .occupied
      return { m with directories := place :: m.directories }
    | _ => do
      let directory ← m.locateFrom here pieces.dropLast
      throw (if m.isDirectory directory then .occupied else .refused)

/-- Whether some pieces lead to a directory. -/
def reachesDirectory (m : Memory) (here : Place) (pieces : List String) : Bool :=
  match m.locateFrom here pieces with
  | .ok place => m.isDirectory place
  | .error _ => false

/-- Makes the first directory of a list, whose parents come after it.  If its parent is missing,
that is made first. -/
def makeFirst (m : Memory) (here : Place) : List (List String) → Option Memory
  | [] => some m
  | pieces :: parents =>
    match m.makeDirectory here pieces with
    | .ok made => some made
    | .error .occupied => if m.reachesDirectory here pieces then some m else none
    | .error .refused => none
    | .error .missing => do
      let m ← makeFirst m here parents
      match m.makeDirectory here pieces with
      | .ok made => some made
      | .error _ => if m.reachesDirectory here pieces then some m else none

/-- Makes the directory of a path and those on the way. -/
def makeDirectories (m : Memory) (p : Path) : Option Memory :=
  if p.text = "" then some m
  else if admits p then m.makeFirst (start p) (p.pieces :: p.ancestors)
  else none

/-! ### The host -/

def host : Host (StateM Memory) where
  readFile path := do
    let m ← get
    match (m.locate path).toOption.bind m.readAt with
    | some (text, rest) => set rest; return some text
    | none => return none
  writeFile path text := do
    let m ← get
    match (m.target path).toOption.bind (m.writeAt · text) with
    | some written => set written; return true
    | none => return false
  makeDirectory path := do
    match (← get).makeDirectories path with
    | some made => set made; return true
    | none => return false
  readInput := do
    let m ← get
    set { m with input := "" }
    return m.input
  print text := modify fun m => { m with output := m.output ++ text }
  printError text := modify fun m => { m with errors := m.errors ++ text }

def above (place : Place) : List Place :=
  (List.range place.length).map place.take

/-- Some files in the directory where the tools work, by their paths. -/
def ofFiles (files : List (String × String)) (input : String) : Memory :=
  let placed := files.map fun (path, text) => (home ++ (Path.mk path).pieces, text)
  { files := placed
    directories := [["dev"], home] ++ above home ++ placed.flatMap fun (place, _) => above place
    input }

def read? (m : Memory) (path : String) : Option String :=
  (m.locate ⟨path⟩).toOption.bind m.file?

/-- The files that another state has more in the directory where the tools work, by their paths in
ascending order. -/
def added (before after : Memory) : List (String × String) :=
  let fresh := after.files.filter fun f =>
    home.isPrefixOf f.1 && (before.file? f.1).isNone
  (fresh.map fun (place, text) => ("/".intercalate (place.drop home.length), text)).mergeSort
    fun a b => a.1 ≤ b.1

end Memory

end Dataflow
